import OsLabs.Lib.ExceptRules
import OsLabs.Lib.LinkedChain
import OsLabs.Lib.Transition

/-!
# linked_list.c of lab 1

`list_delete` empties the whole list when it deletes the first node, and `list_size` reads
through the null pointer of an empty list.
-/

set_option autoImplicit false

namespace OsLabs.Dbg

open OsLabs.ExceptRules OsLabs.LinkedChain OsLabs.Transition

/-! ## The list -/

abbrev NodePtr := Nat

/-- What `h` points to, and the fields of the nodes in memory; `none` is `NULL`. -/
structure NodeList where
  head : Option NodePtr
  id : NodePtr → Int
  next : NodePtr → Option NodePtr

inductive Fault where
  | nullDereference
  /-- A loop was given up. -/
  | running
  deriving DecidableEq, Repr

def listInit (list : NodeList) : NodeList := { list with head := none }

/-- The `do` loop of `list_size`; `r` is an `int`. -/
def sizeLoop (list : NodeList) : Nat → Option NodePtr → BitVec 32 → Except Fault (BitVec 32)
  | 0, _, _ => .error .running
  | _ + 1, none, _ => .error .nullDereference
  | fuel + 1, some p, r =>
      let r := r + 1#32
      if list.next p = none then .ok r else sizeLoop list fuel (list.next p) r

def listSize (fuel : Nat) (list : NodeList) : Except Fault (BitVec 32) :=
  sizeLoop list fuel list.head 0#32

def listInsert (list : NodeList) (n : NodePtr) : NodeList :=
  { list with head := some n, next := Function.update list.next n list.head }

/-- The loop of `list_find_before`. -/
def findBefore (list : NodeList) (id : Int) :
    Nat → Option NodePtr → Except Fault (Option NodePtr)
  | 0, _ => .error .running
  | _ + 1, none => .ok none
  | fuel + 1, some p =>
      match list.next p with
      | none => .ok none
      | some after =>
          if list.id after = id then .ok (some p) else findBefore list id fuel (some after)

def listFindBefore (fuel : Nat) (list : NodeList) (id : Int) :
    Except Fault (Option NodePtr) :=
  findBefore list id fuel list.head

/-- The part of `list_delete` behind the check of the first node. -/
def deleteBehind (fuel : Nat) (list : NodeList) (id : Int) :
    Except Fault (Option NodePtr × NodeList) := do
  match ← listFindBefore fuel list id with
  | none => .ok (none, list)
  | some p =>
      match list.next p with
      | none => .error .nullDereference
      | some r =>
          let next := Function.update list.next p (list.next r)
          .ok (some r, { list with next := Function.update next r none })

def listDelete (fuel : Nat) (list : NodeList) (id : Int) :
    Except Fault (Option NodePtr × NodeList) :=
  match list.head with
  | some first =>
      if list.id first = id then .ok (some first, { list with head := none })
      else deleteBehind fuel list id
  | none => deleteBehind fuel list id

/-! ## What the calls should do -/

/-- The first node with the id is returned and is the one that is gone. -/
def DeletesFirst (list : NodeList) (nodes : List NodePtr) (id : Int) : Prop :=
  ∃ fuel after, listDelete fuel list id = .ok (nodes.find? (list.id · = id), after) ∧
    Chain after.next after.head (nodes.eraseP (list.id · = id)) ∧ after.id = list.id

def CountsNodes (list : NodeList) (nodes : List NodePtr) : Prop :=
  ∃ fuel r, listSize fuel list = .ok r ∧ r.toInt = nodes.length

/-- The first node does not have the id, or is the only one. -/
def HeadAlone (list : NodeList) (id : Int) : Prop :=
  ∀ first, list.head = some first → list.id first = id → list.next first = none

section Calls

variable {list : NodeList} {nodes rest : List NodePtr} {first node : NodePtr} {id : Int}

theorem findBefore_spec {fuel : Nat} (chain : Chain list.next (some node) (node :: rest))
    (enough : rest.length < fuel) :
    rest.find? (list.id · = id) = none ∧ findBefore list id fuel (some node) = .ok none ∨
    ∃ front before removed back, rest.find? (list.id · = id) = some removed ∧
      findBefore list id fuel (some node) = .ok (some before) ∧
      node :: rest = front ++ before :: removed :: back ∧
      node :: rest.eraseP (list.id · = id) = front ++ before :: back := by
  induction rest generalizing node fuel with
  | nil =>
      obtain ⟨fuel, rfl⟩ := Nat.exists_eq_succ_of_ne_zero (by omega : fuel ≠ 0)
      have last : list.next node = none := chain.2
      left
      simp [findBefore, last]
  | cons after more ih =>
      obtain ⟨fuel, rfl⟩ := Nat.exists_eq_succ_of_ne_zero (by omega : fuel ≠ 0)
      have link : list.next node = some after := chain.2.1
      have onward : Chain list.next (some after) (after :: more) := ⟨rfl, chain.2.2⟩
      simp only [findBefore, link]
      by_cases here : list.id after = id
      · right
        refine ⟨[], node, after, more, ?_, ?_, rfl, ?_⟩
        · simp [here]
        · rw [if_pos here]
        · simp [here]
      · rw [if_neg here]
        simp only [List.length_cons] at enough
        rcases ih onward (Nat.lt_of_succ_lt_succ enough) with
          ⟨absent, miss⟩ | ⟨front, before, removed, back, found, hit, split, erased⟩
        · left
          simp [here, absent, miss]
        · right
          refine ⟨node :: front, before, removed, back, ?_, hit, ?_, ?_⟩
          · simp [here, found]
          · rw [split]
            rfl
          · rw [List.eraseP_cons_of_neg (by simpa using here), erased]
            rfl

theorem deleteBehind_spec {fuel : Nat} (head : list.head = some first)
    (chain : Chain list.next (some first) (first :: rest)) (enough : rest.length < fuel) :
    ∃ after, deleteBehind fuel list id = .ok (rest.find? (list.id · = id), after) ∧
      Chain after.next after.head (first :: rest.eraseP (list.id · = id)) ∧
      after.id = list.id := by
  unfold deleteBehind listFindBefore
  rw [head]
  rcases @findBefore_spec list rest first id fuel chain enough with
    ⟨absent, miss⟩ | ⟨front, before, removed, back, found, hit, split, erased⟩
  · rw [miss, absent, ok_bind]
    refine ⟨list, rfl, ?_, rfl⟩
    rw [List.eraseP_of_forall_not, head]
    · exact chain
    · intro other member
      simpa using List.find?_eq_none.mp absent other member
  · rw [split] at chain
    have link : list.next before = some removed := chain.tail.1
    rw [hit, found, ok_bind]
    simp only [link]
    refine ⟨_, rfl, ?_, rfl⟩
    rw [erased]
    exact chain.unlink

/-- The calls after which the list is right are those that do not empty it. -/
theorem listDelete_iff (chain : Chain list.next list.head nodes) :
    DeletesFirst list nodes id ↔ HeadAlone list id := by
  cases nodes with
  | nil =>
      have empty : list.head = none := chain
      constructor
      · intro _ first head
        rw [empty] at head
        cases head
      · intro _
        refine ⟨1, list, ?_, chain, rfl⟩
        simp [listDelete, deleteBehind, listFindBefore, findBefore, empty]
  | cons first rest =>
      have head : list.head = some first := chain.1
      have whole : Chain list.next (some first) (first :: rest) := ⟨rfl, chain.2⟩
      by_cases here : list.id first = id
      · constructor
        · rintro ⟨fuel, after, ran, left, _⟩ other otherHead _
          rw [head] at otherHead
          cases otherHead
          simp only [listDelete, head, if_pos here] at ran
          obtain ⟨_, rfl⟩ := Prod.mk.inj (Except.ok.inj ran)
          rw [List.eraseP_cons_of_pos (by simpa using here)] at left
          have gone : Chain list.next none [] := rfl
          have empty : rest = [] := left.unique gone
          have tail := chain.2
          rw [empty] at tail
          exact tail
        · intro alone
          have last := alone first head here
          have tail := chain.2
          rw [last] at tail
          have empty : rest = [] := tail.unique rfl
          refine ⟨1, { list with head := none }, ?_, ?_, rfl⟩
          · simp [listDelete, head, here]
          · rw [List.eraseP_cons_of_pos (by simpa using here), empty]
            rfl
      · constructor
        · intro _ other otherHead same
          rw [head] at otherHead
          cases otherHead
          exact absurd same here
        · intro _
          obtain ⟨after, ran, left, ids⟩ :=
            @deleteBehind_spec list rest first id _ head whole (Nat.lt_succ_self _)
          refine ⟨rest.length + 1, after, ?_, ?_, ids⟩
          · simp only [listDelete, head, if_neg here]
            rw [ran, List.find?_cons_of_neg (by simpa using here)]
          · rw [List.eraseP_cons_of_neg (by simpa using here)]
            exact left

theorem sizeLoop_spec {fuel : Nat} {r : BitVec 32}
    (chain : Chain list.next (some node) (node :: rest)) :
    sizeLoop list fuel (some node) r =
      if rest.length < fuel then .ok (r + BitVec.ofNat 32 (rest.length + 1))
      else .error .running := by
  induction fuel generalizing node rest r with
  | zero => rfl
  | succ fuel ih =>
      cases rest with
      | nil =>
          have last : list.next node = none := chain.2
          simp [sizeLoop, last]
      | cons after more =>
          have link : list.next node = some after := chain.2.1
          have onward := @ih more after (r + 1#32) ⟨rfl, chain.2.2⟩
          simp only [sizeLoop, link, List.length_cons, Nat.succ_lt_succ_iff]
          rw [if_neg (by simp), onward, BitVec.add_assoc, ← BitVec.ofNat_add, Nat.add_comm 1]

/-- The list is counted when it has nodes, as many as an `int` can hold. -/
theorem listSize_iff (chain : Chain list.next list.head nodes) :
    CountsNodes list nodes ↔ nodes ≠ [] ∧ nodes.length < 2 ^ 31 := by
  cases nodes with
  | nil =>
      have empty : list.head = none := chain
      constructor
      · rintro ⟨fuel, r, ran, _⟩
        rw [listSize, empty] at ran
        cases fuel with
        | zero => cases ran
        | succ fuel => cases ran
      · rintro ⟨nonempty, _⟩
        exact absurd rfl nonempty
  | cons first rest =>
      have head : list.head = some first := chain.1
      have counted := fun fuel => @sizeLoop_spec list rest first fuel 0#32 ⟨rfl, chain.2⟩
      rw [BitVec.zero_add] at counted
      constructor
      · rintro ⟨fuel, r, ran, exact⟩
        rw [listSize, head, counted] at ran
        split at ran
        · cases ran
          have upper := @BitVec.toInt_lt 32 (BitVec.ofNat 32 (rest.length + 1))
          refine ⟨List.cons_ne_nil _ _, ?_⟩
          rw [List.length_cons] at exact ⊢
          omega
        · cases ran
      · rintro ⟨_, small⟩
        refine ⟨rest.length + 1, BitVec.ofNat 32 (rest.length + 1), ?_, ?_⟩
        · rw [listSize, head, counted, if_pos (Nat.lt_succ_self _)]
        · rw [List.length_cons] at small ⊢
          rw [BitVec.toInt_eq_toNat_of_lt]
          · rw [BitVec.toNat_ofNat, Nat.mod_eq_of_lt (by omega)]
          · rw [BitVec.toNat_ofNat]
            omega

end Calls

/-! ## Runs -/

inductive ListOp where
  /-- The caller has set the id of the node. -/
  | insert (node : NodePtr) (id : Int)
  | delete (id : Int)
  deriving DecidableEq, Repr

inductive ListStep : NodeList → ListOp → NodeList → Prop where
  | insert {list : NodeList} {node : NodePtr} {id : Int} :
      (∀ nodes, Chain list.next list.head nodes → node ∉ nodes) →
      ListStep list (.insert node id)
        (listInsert { list with id := Function.update list.id node id } node)
  | delete {list after : NodeList} {fuel : Nat} {id : Int} {r : Option NodePtr} :
      listDelete fuel list id = .ok (r, after) → ListStep list (.delete id) after

/-- A step that does not delete the first of several nodes. -/
def CarefulStep (list : NodeList) (op : ListOp) (after : NodeList) : Prop :=
  ListStep list op after ∧ ∀ id, op = .delete id → HeadAlone list id

def ListOp.apply (contents : List (NodePtr × Int)) : ListOp → List (NodePtr × Int)
  | .insert node id => (node, id) :: contents
  | .delete id => contents.eraseP (·.2 = id)

def Holds (list : NodeList) (contents : List (NodePtr × Int)) : Prop :=
  Chain list.next list.head (contents.map Prod.fst) ∧ ∀ entry ∈ contents, list.id entry.1 = entry.2

section Runs

variable {list after : NodeList} {contents : List (NodePtr × Int)} {op : ListOp}

theorem findBefore_fuel {id : Int} {fuel more : Nat} {p : Option NodePtr}
    {result : Option NodePtr} (ran : findBefore list id fuel p = .ok result)
    (enough : fuel ≤ more) : findBefore list id more p = .ok result := by
  induction fuel generalizing more p with
  | zero => cases ran
  | succ fuel ih =>
      obtain ⟨more, rfl⟩ := Nat.exists_eq_succ_of_ne_zero (by omega : more ≠ 0)
      cases p with
      | none => exact ran
      | some p =>
          simp only [findBefore] at ran ⊢
          cases link : list.next p with
          | none =>
              rw [link] at ran
              exact ran
          | some after =>
              simp only [link] at ran ⊢
              split at ran
              · next found => rwa [if_pos found]
              · next other =>
                  rw [if_neg other]
                  exact ih ran (Nat.le_of_succ_le_succ enough)

theorem listDelete_fuel {id : Int} {fuel more : Nat} {result : Option NodePtr × NodeList}
    (ran : listDelete fuel list id = .ok result) (enough : fuel ≤ more) :
    listDelete more list id = .ok result := by
  have behind (ran : deleteBehind fuel list id = .ok result) :
      deleteBehind more list id = .ok result := by
    obtain ⟨found, search, unlinked⟩ := bind_eq_ok.mp ran
    refine bind_eq_ok.mpr ⟨found, findBefore_fuel search enough, unlinked⟩
  unfold listDelete at ran ⊢
  cases head : list.head with
  | none =>
      rw [head] at ran
      exact behind ran
  | some first =>
      rw [head] at ran
      by_cases here : list.id first = id
      · simp only [if_pos here] at ran ⊢
        exact ran
      · simp only [if_neg here] at ran ⊢
        exact behind ran

theorem listDelete_leaves {nodes : List NodePtr} {id : Int} {fuel : Nat}
    {r : Option NodePtr} (chain : Chain list.next list.head nodes)
    (ran : listDelete fuel list id = .ok (r, after)) :
    (HeadAlone list id →
      Chain after.next after.head (nodes.eraseP (list.id · = id)) ∧ after.id = list.id) ∧
    (¬ HeadAlone list id → after.head = none) := by
  constructor
  · intro alone
    obtain ⟨other, result, ranOther, left, ids⟩ := (listDelete_iff chain).mpr alone
    have longer := listDelete_fuel ran (Nat.le_max_left fuel other)
    rw [listDelete_fuel ranOther (Nat.le_max_right fuel other)] at longer
    cases longer
    exact ⟨left, ids⟩
  · intro several
    simp only [HeadAlone, not_forall] at several
    obtain ⟨first, head, here, _⟩ := several
    simp only [listDelete, head, if_pos here] at ran
    cases ran
    rfl

theorem Holds.insert {node : NodePtr} {id : Int} (holds : Holds list contents)
    (fresh : node ∉ contents.map Prod.fst) :
    Holds (listInsert { list with id := Function.update list.id node id } node)
      ((node, id) :: contents) := by
  refine ⟨holds.1.push fresh, ?_⟩
  intro entry member
  rcases List.mem_cons.mp member with rfl | old
  · exact Function.update_self ..
  · have kept : entry.1 ≠ node := by
      rintro rfl
      exact fresh (List.mem_map_of_mem old)
    exact (Function.update_of_ne kept ..).trans (holds.2 entry old)

theorem map_eraseP_ids {ids : NodePtr → Int} {id : Int}
    (right : ∀ entry ∈ contents, ids entry.1 = entry.2) :
    (contents.eraseP (·.2 = id)).map Prod.fst =
      (contents.map Prod.fst).eraseP (ids · = id) := by
  induction contents with
  | nil => rfl
  | cons entry rest ih =>
      have here := right entry List.mem_cons_self
      by_cases same : entry.2 = id
      · rw [List.eraseP_cons_of_pos (by simpa using same), List.map_cons,
          List.eraseP_cons_of_pos (by simpa [here] using same)]
      · rw [List.eraseP_cons_of_neg (by simpa using same), List.map_cons, List.map_cons,
          List.eraseP_cons_of_neg (by simpa [here] using same),
          ih fun other member => right other (List.mem_cons_of_mem _ member)]

theorem Holds.delete {id : Int} {fuel : Nat} {r : Option NodePtr}
    (holds : Holds list contents) (ran : listDelete fuel list id = .ok (r, after))
    (alone : HeadAlone list id) : Holds after (contents.eraseP (·.2 = id)) := by
  obtain ⟨left, ids⟩ := (listDelete_leaves holds.1 ran).1 alone
  refine ⟨?_, ?_⟩
  · rw [map_eraseP_ids holds.2]
    exact left
  · intro entry member
    rw [ids]
    exact holds.2 entry (List.mem_of_mem_eraseP member)

theorem Holds.step (holds : Holds list contents) (careful : CarefulStep list op after) :
    Holds after (op.apply contents) := by
  obtain ⟨step, alone⟩ := careful
  cases step with
  | insert fresh => exact holds.insert (fresh _ holds.1)
  | delete ran => exact holds.delete ran (alone _ rfl)

theorem ListStep.chain {nodes : List NodePtr} (step : ListStep list op after)
    (chain : Chain list.next list.head nodes) :
    ∃ nodes, Chain after.next after.head nodes := by
  cases step with
  | insert fresh => exact ⟨_, chain.push (fresh _ chain)⟩
  | @delete _ fuel id r ran =>
      by_cases alone : HeadAlone list id
      · exact ⟨_, ((listDelete_leaves chain ran).1 alone).1⟩
      · exact ⟨[], (listDelete_leaves chain ran).2 alone⟩

/-- In every list that is reached, a deletion is right unless it finds its id in the first of
several nodes, and the size is right unless the list is empty; runs without such deletions
keep every node they were not told to delete. -/
theorem list_runs (start : NodeList) :
    (∀ ops last, Run ListStep (listInit start) ops last →
      ∃ nodes, Chain last.next last.head nodes ∧
        (∀ id, DeletesFirst last nodes id ↔ HeadAlone last id) ∧
        (CountsNodes last nodes ↔ nodes ≠ [] ∧ nodes.length < 2 ^ 31)) ∧
    (∀ ops last, Run CarefulStep (listInit start) ops last →
      Holds last (ops.foldl ListOp.apply [])) := by
  constructor
  · intro ops last run
    have reached : ∃ nodes, Chain last.next last.head nodes :=
      run.invariant (fun list => ∃ nodes, Chain list.next list.head nodes) ⟨[], rfl⟩
        fun _ _ _ ⟨_, chain⟩ step => step.chain chain
    obtain ⟨nodes, chain⟩ := reached
    exact ⟨nodes, chain, fun _ => listDelete_iff chain, listSize_iff chain⟩
  · intro ops last run
    refine run.history (fun seen list => Holds list (seen.foldl ListOp.apply [])) ?_ ?_
    · exact ⟨rfl, fun _ member => absurd member List.not_mem_nil⟩
    · intro seen list op after holds careful
      rw [List.foldl_append]
      exact holds.step careful

end Runs

/-! ## Lists of two and three nodes -/

def memory : NodeList := ⟨none, fun _ => 7, fun _ => none⟩

def one : NodeList :=
  listInsert { listInit memory with id := Function.update memory.id 0 1 } 0

def two : NodeList := listInsert { one with id := Function.update one.id 1 2 } 1

theorem one_chain : Chain one.next one.head [0] := by
  refine ⟨rfl, ?_⟩
  rfl

theorem two_run : Run CarefulStep (listInit memory) [.insert 0 1, .insert 1 2] two := by
  have first : CarefulStep (listInit memory) (.insert 0 1) one := by
    refine ⟨.insert ?_, fun _ => nofun⟩
    intro nodes chain
    have empty : Chain memory.next none [] := rfl
    rw [chain.unique empty]
    exact List.not_mem_nil
  have second : CarefulStep one (.insert 1 2) two := by
    refine ⟨.insert ?_, fun _ => nofun⟩
    intro nodes chain
    rw [chain.unique one_chain]
    decide
  exact (Run.start.extend first).extend second

def three : NodeList := listInsert { two with id := Function.update two.id 2 3 } 2

/-- The three nodes without the middle one, and then without the last one. -/
def spliced : NodeList :=
  { three with next := Function.update (Function.update three.next 2 (some 0)) 1 none }

def shortened : NodeList :=
  { spliced with next := Function.update (Function.update spliced.next 2 none) 0 none }

theorem three_run : Run CarefulStep (listInit memory)
    [.insert 0 1, .insert 1 2, .insert 2 3, .delete 2, .delete 1] shortened := by
  have two_chain : Chain two.next two.head [1, 0] := by
    refine ⟨rfl, rfl, ?_⟩
    rfl
  have third : CarefulStep two (.insert 2 3) three := by
    refine ⟨.insert ?_, fun _ => nofun⟩
    intro nodes chain
    rw [chain.unique two_chain]
    decide
  have middle : CarefulStep three (.delete 2) spliced := by
    have ran : listDelete 3 three 2 = .ok (some 1, spliced) := rfl
    refine ⟨.delete ran, ?_⟩
    rintro id ⟨⟩ first ⟨⟩ same
    exact absurd same (by decide)
  have last : CarefulStep spliced (.delete 1) shortened := by
    have ran : listDelete 3 spliced 1 = .ok (some 0, shortened) := rfl
    refine ⟨.delete ran, ?_⟩
    rintro id ⟨⟩ first ⟨⟩ same
    exact absurd same (by decide)
  exact ((two_run.extend third).extend middle).extend last

theorem list_runs_three : Holds shortened [(2, 3)] :=
  (list_runs memory).2 _ shortened three_run

/-- Deleting node 1 of the two loses node 0, and the empty list cannot be counted. -/
theorem list_runs_lose :
    (¬ ∀ start ops last, Run ListStep (listInit start) ops last →
      ∃ nodes, Chain last.next last.head nodes ∧ ∀ id, DeletesFirst last nodes id) ∧
    (¬ ∀ start ops last, Run ListStep (listInit start) ops last →
      ∃ nodes, Chain last.next last.head nodes ∧ CountsNodes last nodes) := by
  constructor
  · intro all
    obtain ⟨nodes, chain, deletes⟩ := all memory _ two (two_run.mono fun _ _ _ step => step.1)
    have alone := (listDelete_iff chain).mp (deletes 2)
    exact absurd (alone 1 rfl rfl) (by decide)
  · intro all
    obtain ⟨nodes, chain, counts⟩ := all memory [] _ .start
    have empty : Chain memory.next none [] := rfl
    exact ((listSize_iff chain).mp counts).1 (chain.unique empty)

end OsLabs.Dbg
