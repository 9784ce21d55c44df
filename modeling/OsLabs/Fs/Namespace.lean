import OsLabs.Fs.Driver
import OsLabs.Fs.Rename
import OsLabs.Fs.ShownChanges

/-!
# The callbacks that change names

`fs_mknod`, `fs_mkdir`, `fs_symlink`, `fs_unlink`, `fs_rmdir`, `fs_link` and `fs_rename` of
fsdriver.c, on the image.
-/

set_option autoImplicit false

namespace OsLabs.Fs

open OsLabs.ByteMemory

/-- What `time` and `fuse_get_context` return. -/
structure Caller where
  time : Nat
  uid : Nat
  gid : Nat
  deriving DecidableEq, Repr

abbrev Reply := Except Failure Unit × Memory

/-- An error number of inode.c is returned as it is. -/
def Failure.errno (number : Errno) : Failure := .stop (.errno number)

def replyErrno : Except Errno Unit × Memory → Reply
  | (.error number, map) => (.error (.errno number), map)
  | (.ok (), map) => (.ok (), map)

def sIflnk : Nat := 0o120000

/-! ## New inodes -/

def setType (map : Memory) (ino size mode : Nat) : Memory :=
  let map := storeLE map (ino + iSize) 4 size
  let map := storeLE map (ino + iMode) 4 mode
  storeLE map (ino + iNlink) 2 1

def setCaller (caller : Caller) (map : Memory) (ino : Nat) : Memory :=
  let map := storeLE map (ino + iAtime) 8 caller.time
  let map := storeLE map (ino + iCtime) 8 caller.time
  let map := storeLE map (ino + iMtime) 8 caller.time
  let map := storeLE map (ino + iOwner) 4 caller.uid
  storeLE map (ino + iGroup) 4 caller.gid

section Callbacks

variable (stubs : Nat → InodeStubs) (allocBlock : Memory → Except Errno Nat × Memory)
  (links : LinkStubs Memory) (caller : Caller)

/-- `if ((r = inode_create(path, &ino)) < 0) return r;` and what follows it. -/
def withNew (map : Memory) (path : List UInt8) (body : Nat → Memory → Reply) : Reply :=
  match inodeCreate stubs allocBlock map path with
  | (.error stopped, map) => (.error (.stop stopped), map)
  | (.ok ino, map) => body ino map

def fsMknod (map : Memory) (path : List UInt8) (mode rdev : Nat) : Reply :=
  withNew stubs allocBlock map path fun ino map =>
    let map := setType map ino 0 mode
    let map := storeLE map (ino + iRdev) 8 rdev
    (.ok (), setCaller caller map ino)

def fsMkdir (map : Memory) (path : List UInt8) (mode : Nat) : Reply :=
  withNew stubs allocBlock map path fun dir map =>
    let map := setType map dir 0 (sIfdir ||| (mode &&& 0o777))
    (.ok (), setCaller caller map dir)

def fsSymlink (map : Memory) (dstpath srcpath : List UInt8) : Reply :=
  if pathMax ≤ dstpath.length then (.error (.errno .nametoolong), map)
  else
    withNew stubs allocBlock map srcpath fun ino map =>
      let map := setType map ino dstpath.length (sIflnk ||| 0o777)
      let map := setCaller caller map ino
      match (stubs ino).getBlock map 0 with
      | (.error number, map) => (.error (.errno number), (links.unlink map srcpath).2)
      | (.ok blk, map) =>
          let map := blit map blk dstpath.length fun i => dstpath.getD i 0
          match inodeFlush (stubs ino) ino map with
          | .error stopped => (.error (.stop stopped), map)
          | .ok _ => (.ok (), map)

/-! ## Names that are there -/

def fsUnlink (map : Memory) (path : List UInt8) : Reply :=
  withInode stubs map path fun ino map =>
    if isDir map ino then (.error .isdir, map)
    else
      let map := storeLE map (ino + iCtime) 8 caller.time
      replyErrno (links.unlink map path)

/-- The loops of `fs_rmdir` stop at the first entry with a name. -/
def entryNamed (map : Memory) (d : Nat) : Bool := map (d + dName) != 0

def fsRmdir (map : Memory) (path : List UInt8) : Reply :=
  withInode stubs map path fun dir map =>
    unlessRoot map dir fun map =>
      if ¬ isDir map dir then (.error .notdir, map)
      else
        match scanBlocks (stubs dir) entryNamed (iSizeOf dir map / blkSize) 0 map with
        | (.error stopped, map) => (.error (.stop stopped), map)
        | (.ok (some _), map) => (.error .notempty, map)
        | (.ok none, map) => replyErrno (links.unlink map path)

def fsLink (map : Memory) (srcpath dstpath : List UInt8) : Reply :=
  withInode stubs map srcpath fun ino map =>
    if isDir map ino then (.error .perm, map)
    else
      let map := storeLE map (ino + iCtime) 8 caller.time
      replyErrno (links.link map srcpath dstpath)

inductive NameRequest where
  | mknod (path : List UInt8) (mode rdev : Nat)
  | mkdir (path : List UInt8) (mode : Nat)
  | symlink (target path : List UInt8)
  | unlink (path : List UInt8)
  | rmdir (path : List UInt8)
  | link (src dst : List UInt8)
  | rename (src dst : List UInt8)
  deriving DecidableEq, Repr

def NameRequest.strings : NameRequest → List (List UInt8)
  | .mknod path _ _ => [path]
  | .mkdir path _ => [path]
  | .symlink target path => [target, path]
  | .unlink path => [path]
  | .rmdir path => [path]
  | .link src dst => [src, dst]
  | .rename src dst => [src, dst]

/-- The loop of `fs_rename` may go on for as long as `retries` says. -/
def serveName (retries : Nat) (map : Memory) : NameRequest → Reply
  | .mknod path mode rdev => fsMknod stubs allocBlock caller map path mode rdev
  | .mkdir path mode => fsMkdir stubs allocBlock caller map path mode
  | .symlink target path => fsSymlink stubs allocBlock links caller map target path
  | .unlink path => fsUnlink stubs links caller map path
  | .rmdir path => fsRmdir stubs links map path
  | .link src dst => fsLink stubs links caller map src dst
  | .rename src dst =>
      let (answer, map) := fsRename links src dst retries map
      (answer.mapError .stop, map)

end Callbacks

/-- The driver has not stopped. -/
def Answered : Except Failure Unit → Prop
  | .error (.stop (.errno _)) => True
  | .error (.stop _) => False
  | _ => True

end OsLabs.Fs
