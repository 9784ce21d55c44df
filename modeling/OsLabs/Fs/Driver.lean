import OsLabs.Fs.ImageTree
import OsLabs.Fs.InodeBlocks
import OsLabs.Fs.VolumeImage

/-!
# The mounted driver

`main` of fsdriver.c up to `fuse_main`, and the callbacks that need no new block and change
no name.  The driver is single-threaded, so that requests come one after the other; a file
handle is the address of an inode.  `Volume` is what they should show of an image: some
files with contents, whose headers alone change.
-/

set_option autoImplicit false

namespace OsLabs.Fs

open OsLabs.ByteMemory OsLabs.ExceptRules

/-! ## main -/

/-- The error numbers that the callbacks add to those of inode.c. -/
inductive Failure where
  | stop (stop : Stop)
  | perm
  | isdir
  | notdir
  | notempty
  deriving DecidableEq, Repr

section Callbacks

variable (stubs : Nat → InodeStubs)

/-- `if ((r = inode_open(path, &ino)) < 0) return r;` and what follows it. -/
def withInode {α : Type} (map : Memory) (path : List UInt8)
    (body : Nat → Memory → Except Failure α × Memory) : Except Failure α × Memory :=
  match inodeOpen stubs map path with
  | (.error stopped, map) => (.error (.stop stopped), map)
  | (.ok none, map) => (.error (.stop .assertion), map)
  | (.ok (some ino), map) => body ino map

def fsGetattr (map : Memory) (path : List UInt8) : Except Failure Stat × Memory :=
  withInode stubs map path fun ino map => (.ok (inodeStat (stubs ino) ino map), map)

def fsOpen (map : Memory) (path : List UInt8) : Except Failure Nat × Memory :=
  withInode stubs map path fun ino map => (.ok ino, map)

def fsFgetattr (map : Memory) (fh : Nat) : Stat := inodeStat (stubs fh) fh map

def fsFsync (map : Memory) (fh : Nat) : Except Stop (List Nat) := inodeFlush (stubs fh) fh map

def fsUtimens (time : Nat) (map : Memory) (path : List UInt8) (atime mtime : Nat) :
    Except Failure Unit × Memory :=
  withInode stubs map path fun ino map =>
    let map := storeLE map (ino + iAtime) 8 atime
    let map := storeLE map (ino + iMtime) 8 mtime
    (.ok (), storeLE map (ino + iCtime) 8 time)

/-- `if (ino == diskblock2memaddr(super->s_root)) return -EPERM;` and what follows it. -/
def unlessRoot {α : Type} (map : Memory) (ino : Nat)
    (body : Memory → Except Failure α × Memory) : Except Failure α × Memory :=
  match diskblock2memaddr map (loadLE map sRoot 4) with
  | .error stopped => (.error (.stop stopped), map)
  | .ok root => if ino = root then (.error .perm, map) else body map

def fsChmod (time : Nat) (map : Memory) (path : List UInt8) (mode : Nat) :
    Except Failure Unit × Memory :=
  withInode stubs map path fun ino map =>
    unlessRoot map ino fun map =>
      let map := storeLE map (ino + iMode) 4 mode
      (.ok (), storeLE map (ino + iCtime) 8 time)

/-- `-1` as a `uid_t` or a `gid_t`. -/
def keepId : Nat := 2 ^ 32 - 1

def fsChown (time : Nat) (map : Memory) (path : List UInt8) (uid gid : Nat) :
    Except Failure Unit × Memory :=
  withInode stubs map path fun ino map =>
    unlessRoot map ino fun map =>
      let map := if uid ≠ keepId then storeLE map (ino + iOwner) 4 uid else map
      let map := if gid ≠ keepId then storeLE map (ino + iGroup) 4 gid else map
      (.ok (), storeLE map (ino + iCtime) 8 time)

end Callbacks

/-! ## Requests -/

/-- What the kernel asks for.  A handle is the number of a call of `open` or `opendir`; the
bytes of `dent` are what is left on the stack. -/
inductive Request where
  | getattr (path : List UInt8)
  | fgetattr (handle : Nat)
  | opens (path : List UInt8)
  | read (handle count offset : Nat)
  | readdir (handle offset : Nat) (dent : List UInt8) (accept : Nat → Bool)
  | statfs
  | fsync (handle : Nat)
  | utimens (path : List UInt8) (atime mtime : Nat)
  | chmod (path : List UInt8) (mode : Nat)
  | chown (path : List UInt8) (uid gid : Nat)

inductive Answer where
  | stat (stat : Stat)
  | opened
  | bytes (bytes : List UInt8)
  | names (names : List (Name × Nat)) (refused : Bool)
  | space (space : Statvfs)
  | done
  | failed (failure : Failure)
  /-- The kernel knows no such handle. -/
  | badHandle
  deriving DecidableEq, Repr

def Listing.names (listing : Listing) : List (Name × Nat) :=
  listing.accepted.map fun entry => (entry.1.takeWhile (· ≠ 0), entry.2)

/-- The image and the `fi->fh` of each handle. -/
structure Driver where
  map : Memory
  handles : List Nat

section Serve

variable (stubs : Nat → InodeStubs)

/-- An error number is an answer; everything else that stops a call stops the driver. -/
def reply {α : Type} (handles : List Nat) (done : α → Answer) :
    Except Failure α × Memory → Except Stop (Answer × Driver)
  | (.ok value, map) => .ok (done value, ⟨map, handles⟩)
  | (.error (.stop (.errno number)), map) =>
      .ok (.failed (.stop (.errno number)), ⟨map, handles⟩)
  | (.error (.stop stopped), _) => .error stopped
  | (.error failure, map) => .ok (.failed failure, ⟨map, handles⟩)

def Driver.withHandle (driver : Driver) (handle : Nat)
    (body : Nat → Except Stop (Answer × Driver)) : Except Stop (Answer × Driver) :=
  match driver.handles[handle]? with
  | none => .ok (.badHandle, driver)
  | some fh => body fh

def Driver.serve (time : Nat) (driver : Driver) : Request → Except Stop (Answer × Driver)
  | .getattr path => reply driver.handles .stat (fsGetattr stubs driver.map path)
  | .fgetattr handle =>
      driver.withHandle handle fun fh => .ok (.stat (fsFgetattr stubs driver.map fh), driver)
  | .opens path =>
      match fsOpen stubs driver.map path with
      | (.ok fh, map) => .ok (.opened, ⟨map, driver.handles ++ [fh]⟩)
      | (.error failure, map) => reply driver.handles (fun _ : Unit => .opened) (.error failure, map)
  | .read handle count offset =>
      driver.withHandle handle fun fh =>
        match fsRead (stubs fh) fh time driver.map count offset with
        | (.ok bytes, map) => .ok (.bytes bytes, ⟨map, driver.handles⟩)
        | (.error stopped, map) =>
            reply driver.handles (fun _ : Unit => .done) (.error (.stop stopped), map)
  | .readdir handle offset dent accept =>
      driver.withHandle handle fun fh => do
        let (listing, map) ← fsReaddir (stubs fh) fh (iSizeOf fh driver.map + 1) driver.map time
          accept dent offset
        .ok (.names listing.names listing.refused, ⟨map, driver.handles⟩)
  | .statfs => .ok (.space (fsStatfs driver.map), driver)
  | .fsync handle =>
      driver.withHandle handle fun fh => do
        let _ ← fsFsync stubs driver.map fh
        .ok (.done, driver)
  | .utimens path atime mtime =>
      reply driver.handles (fun _ => .done) (fsUtimens stubs time driver.map path atime mtime)
  | .chmod path mode =>
      reply driver.handles (fun _ => .done) (fsChmod stubs time driver.map path mode)
  | .chown path uid gid =>
      reply driver.handles (fun _ => .done) (fsChown stubs time driver.map path uid gid)

def Driver.serveAll : List (Nat × Request) → Driver → Except Stop (List Answer)
  | [], _ => .ok []
  | (time, request) :: rest, driver => do
      let (answer, driver) ← driver.serve stubs time request
      let answers ← serveAll rest driver
      .ok (answer :: answers)

end Serve

end OsLabs.Fs
