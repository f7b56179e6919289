import Xmmsg.Sys.Machine
import Xmmsg.Sys.Ownership

/-!
# Loans and their pool

`LoanPool`, `Loan` and the verbs of `Publisher` that take or give a loan, all in
`in_process.hpp`; the shm publisher has the same pool. A pool is eight cells and a
bitmask of those in use, edited by a CAS loop and by `fetch_and`; a loan is a cell and
the pool to return it to, passed on by moves and returned by destructors. Threads
interleave between accesses to the mask. A `Loan` object is not shared: while a thread
is inside an operation on it, no other operation uses it, and the object is `inUse`.

Who owns a cell at a moment: a live object, an `Acquire` that has won its CAS, a
`Release` that has not reached its `fetch_and`, the source of an assignment whose target
is still being released, the local that `Publish` moves its loan into. `loans_exclusive`
says that the mask is exactly the set of owned cells, and that each has one owner. The
rules of `Sys/Ownership.lean` do the bookkeeping; an operation is one move, one take or
one drop, or a drop and a move.
-/

namespace Xmmsg.Loans

open Xmmsg.Sys

/-- `LoanPool::kSlots`. -/
def kSlots : Nat := 8

/-- `in_use_`. -/
abbrev Mask := BitVec 32

inductive LoanStatus where
  | ok
  | exhausted
  deriving DecidableEq, Repr

structure Cell where
  pool : Nat
  index : Nat
  deriving DecidableEq, Repr

/-- `Loan`. A pool is known by its publisher, a slot by its index in the pool; the
defaults are those of the class, and what a move leaves behind. -/
structure Loan where
  slot : Option Nat := none
  status : LoanStatus := .exhausted
  pool : Option Nat := none
  deriving DecidableEq, Repr

/-- What the destructor returns: `pool_ != nullptr && slot_ != nullptr`. -/
def Loan.cell (l : Loan) : Option Cell :=
  match l.pool, l.slot with
  | some p, some i => some ⟨p, i⟩
  | _, _ => none

/-- A `Loan` variable: before its construction and after its destruction, between
operations, and inside one. -/
inductive Object where
  | absent
  | held (l : Loan)
  | inUse
  deriving DecidableEq, Repr

/-- Where a thread stands. -/
inductive Pc where
  | idle
  | load (p x : Nat)                            -- Acquire: in_use_.load
  | cas (p x : Nat) (mask : Mask)               -- one round of its loop
  | acquired (p x i : Nat)                      -- the CAS has succeeded
  | assign (x y : Nat) (old : Cell) (src : Loan)   -- operator=, in Release
  | destroy (x : Nat) (old : Cell)              -- ~Loan, in Release
  | publish (cell : Cell)                       -- Publish or PublishDerived
  deriving DecidableEq, Repr

structure World where
  masks : Nat → Mask := fun _ => 0
  objects : Nat → Object := fun _ => .absent
  threads : Nat → Pc := fun _ => .idle

/-- A verb begins, or a thread makes its next access; `weak` is a CAS that fails for no
reason. `p` is a publisher, `x` and `y` are loan variables. -/
inductive Act where
  | loan (t p x : Nat)                          -- x = publisher.Loan()
  | moveNew (t x y : Nat)                       -- Loan y(std::move(x))
  | moveAssign (t x y : Nat)                    -- x = std::move(y)
  | destroy (t x : Nat)                         -- ~x
  | publish (t x : Nat)                         -- Publish(std::move(x), ..)
  | go (t : Nat) (weak : Bool)
  deriving DecidableEq, Repr

/-- The first index not in use, `kSlots` being none. -/
def freeIndex (mask : Mask) : Option Nat :=
  (List.range kSlots).find? fun i => mask &&& (1#32 <<< i) == 0#32

namespace World

def setObject (w : World) (x : Nat) (o : Object) : World :=
  { w with objects := Function.update w.objects x o }

def setThread (w : World) (t : Nat) (pc : Pc) : World :=
  { w with threads := Function.update w.threads t pc }

def setMask (w : World) (p : Nat) (m : Mask) : World :=
  { w with masks := Function.update w.masks p m }

/-- `LoanPool::Release`. -/
def release (w : World) (c : Cell) : World :=
  w.setMask c.pool (w.masks c.pool &&& ~~~(1#32 <<< c.index))

/-- `served p`: publisher `p` was advertised with status `kOk`, and has a core. -/
def step (served : Nat → Bool) (w : World) : Act → Option World
  | .loan t p x =>
      match w.threads t, w.objects x with
      | .idle, .absent =>
          if served p then some ((w.setObject x .inUse).setThread t (.load p x))
          else some (w.setObject x (.held {}))
      | _, _ => none
  | .moveNew t x y =>
      match w.threads t, w.objects x, w.objects y with
      | .idle, .held l, .absent => some ((w.setObject x (.held {})).setObject y (.held l))
      | _, _, _ => none
  | .moveAssign t x y =>
      match w.threads t, w.objects x, w.objects y with
      | .idle, .held dst, .held src =>
          if x = y then some w
          else
            match dst.cell with
            | some old =>
                some (((w.setObject x .inUse).setObject y .inUse).setThread t
                  (.assign x y old src))
            | none => some ((w.setObject y (.held {})).setObject x (.held src))
      | _, _, _ => none
  | .destroy t x =>
      match w.threads t, w.objects x with
      | .idle, .held l =>
          match l.cell with
          | some old => some ((w.setObject x .inUse).setThread t (.destroy x old))
          | none => some (w.setObject x .absent)
      | _, _ => none
  | .publish t x =>
      match w.threads t, w.objects x with
      | .idle, .held l =>
          -- whatever the publication returns, the local is destroyed after it; without
          -- a cell there is neither
          match l.cell with
          | some cell => some ((w.setObject x (.held {})).setThread t (.publish cell))
          | none => some (w.setObject x (.held {}))
      | _, _ => none
  | .go t weak =>
      match w.threads t with
      | .idle => none
      | .load p x => some (w.setThread t (.cas p x (w.masks p)))
      | .cas p x mask =>
          match freeIndex mask with
          | none => some ((w.setObject x (.held {})).setThread t .idle)
          | some i =>
              if w.masks p = mask ∧ weak = false then
                some ((w.setMask p (mask ||| (1#32 <<< i))).setThread t (.acquired p x i))
              else some (w.setThread t (.cas p x (w.masks p)))
      | .acquired p x i =>
          some ((w.setObject x (.held { slot := some i, status := .ok, pool := some p })).setThread
            t .idle)
      | .assign x y old src =>
          some ((((w.release old).setObject x (.held src)).setObject y (.held {})).setThread t
            .idle)
      | .destroy x old => some (((w.release old).setObject x .absent).setThread t .idle)
      | .publish cell => some ((w.release cell).setThread t .idle)

end World

/-! ## The mask -/

theorem getLsbD_bit {i : Nat} (hi : i < 32) (j : Nat) :
    (1#32 <<< i).getLsbD j = decide (j = i) := by
  rw [BitVec.getLsbD_shiftLeft, BitVec.getLsbD_one]
  by_cases hj : j = i
  · subst hj
    simp [hi]
  · by_cases hlt : j < i
    · simp [hlt, hj]
    · have : ¬ (j - i = 0) := by omega
      simp [this, hj]

theorem getLsbD_set (m : Mask) {i : Nat} (hi : i < 32) (j : Nat) :
    (m ||| (1#32 <<< i)).getLsbD j = true ↔ m.getLsbD j = true ∨ j = i := by
  rw [BitVec.getLsbD_or, getLsbD_bit hi, Bool.or_eq_true, decide_eq_true_eq]

theorem getLsbD_clear (m : Mask) {i : Nat} (hi : i < 32) (j : Nat) :
    (m &&& ~~~(1#32 <<< i)).getLsbD j = true ↔ m.getLsbD j = true ∧ j ≠ i := by
  rw [BitVec.getLsbD_and, BitVec.getLsbD_not, getLsbD_bit hi]
  constructor
  · intro h
    simp only [Bool.and_eq_true, Bool.not_eq_true', decide_eq_false_iff_not] at h
    exact ⟨h.1, h.2.2⟩
  · rintro ⟨hj, hne⟩
    simp [hj, hne, BitVec.lt_of_getLsbD hj]

theorem bit_eq_zero_iff (m : Mask) {i : Nat} (hi : i < 32) :
    (m &&& (1#32 <<< i) == 0#32) = true ↔ m.getLsbD i = false := by
  rw [beq_iff_eq]
  constructor
  · intro h
    have hbit := congrArg (fun v => v.getLsbD i) h
    simpa [BitVec.getLsbD_and, getLsbD_bit hi] using hbit
  · intro h
    refine BitVec.eq_of_getLsbD_eq fun j _ => ?_
    rw [BitVec.getLsbD_and, getLsbD_bit hi, BitVec.getLsbD_zero]
    by_cases hj : j = i
    · rw [hj, h, Bool.false_and]
    · simp [hj]

theorem freeIndex_some {m : Mask} {i : Nat} (h : freeIndex m = some i) :
    i < kSlots ∧ m.getLsbD i = false := by
  have hi := List.mem_range.mp (List.mem_of_find?_eq_some h)
  have hfree := List.find?_some (p := fun i => m &&& (1#32 <<< i) == 0#32) h
  exact ⟨hi, (bit_eq_zero_iff m (Nat.lt_trans hi (by decide))).mp hfree⟩

theorem freeIndex_none {m : Mask} (h : freeIndex m = none) {i : Nat} (hi : i < kSlots) :
    m.getLsbD i = true := by
  have hno := List.find?_eq_none.mp h i (List.mem_range.mpr hi)
  rw [bit_eq_zero_iff m (Nat.lt_trans hi (by decide))] at hno
  exact Bool.not_eq_false _ ▸ hno

/-! ## Owners -/

/-- A loan variable, the operation a thread is in, or the source of an assignment it is
in. -/
inductive Owner where
  | object (x : Nat)
  | thread (t : Nat)
  | source (t : Nat)
  deriving DecidableEq, Repr

def Object.cell : Object → Option Cell
  | .held l => l.cell
  | .absent | .inUse => none

/-- Won and not yet returned, or to be released. -/
def Pc.cell : Pc → Option Cell
  | .acquired p _ i => some ⟨p, i⟩
  | .assign _ _ old _ | .destroy _ old => some old
  | .publish cell => some cell
  | .idle | .load _ _ | .cas _ _ _ => none

def Pc.source : Pc → Option Cell
  | .assign _ _ _ src => src.cell
  | _ => none

/-- The loan variables of a thread's operation. -/
def Pc.uses : Pc → List Nat
  | .load _ x | .cas _ x _ | .acquired _ x _ | .destroy x _ => [x]
  | .assign x y _ _ => [x, y]
  | .idle | .publish _ => []

namespace World

def owns (w : World) : Owner → Option Cell
  | .object x => (w.objects x).cell
  | .thread t => (w.threads t).cell
  | .source t => (w.threads t).source

/-- The cell's bit is set. -/
def taken (w : World) (c : Cell) : Prop := (w.masks c.pool).getLsbD c.index = true

variable (w : World) (x t p : Nat) (o : Object) (pc : Pc) (m : Mask)

@[simp] theorem setThread_objects : (w.setThread t pc).objects = w.objects := rfl
@[simp] theorem release_owns (c : Cell) : (w.release c).owns = w.owns := rfl

@[simp] theorem setThread_self : (w.setThread t pc).threads t = pc := Function.update_self _ _ _

theorem setThread_ne {u : Nat} (hu : u ≠ t) : (w.setThread t pc).threads u = w.threads u :=
  Function.update_of_ne hu _ _

@[simp] theorem setObject_self : (w.setObject x o).objects x = o := Function.update_self _ _ _

theorem setObject_ne {z : Nat} (hz : z ≠ x) : (w.setObject x o).objects z = w.objects z :=
  Function.update_of_ne hz _ _

@[simp] theorem setObject_owns :
    (w.setObject x o).owns = Function.update w.owns (.object x) o.cell := by
  funext a
  cases a with
  | object z =>
      by_cases hz : z = x
      · subst hz
        rw [Function.update_self]
        exact congrArg Object.cell (setObject_self w z o)
      · rw [Function.update_of_ne (by simpa using hz)]
        exact congrArg Object.cell (setObject_ne w x o hz)
  | thread u => rfl
  | source u => rfl

@[simp] theorem setThread_owns :
    (w.setThread t pc).owns =
      Function.update (Function.update w.owns (.thread t) pc.cell) (.source t) pc.source := by
  funext a
  cases a with
  | object z => rfl
  | thread u =>
      rw [Function.update_of_ne (by simp)]
      by_cases hu : u = t
      · subst hu
        rw [Function.update_self]
        exact congrArg Pc.cell (setThread_self w u pc)
      · rw [Function.update_of_ne (by simpa using hu)]
        exact congrArg Pc.cell (setThread_ne w t pc hu)
  | source u =>
      by_cases hu : u = t
      · subst hu
        rw [Function.update_self]
        exact congrArg Pc.source (setThread_self w u pc)
      · rw [Function.update_of_ne (by simpa using hu), Function.update_of_ne (by simp)]
        exact congrArg Pc.source (setThread_ne w t pc hu)

/-- For a thread that is in no assignment, before and after. -/
theorem setThread_owns_of_source (h : w.owns (.source t) = none) (hpc : pc.source = none) :
    (w.setThread t pc).owns = Function.update w.owns (.thread t) pc.cell := by
  rw [setThread_owns, hpc]
  refine Function.update_eq_self_iff.mpr ?_
  rw [Function.update_of_ne (by simp), h]

theorem cell_eq_iff {c d : Cell} (hp : d.pool = c.pool) : d = c ↔ d.index = c.index := by
  cases c
  cases d
  cases hp
  exact ⟨fun h => h ▸ rfl, fun h => congrArg _ h⟩

theorem setMask_taken_of_ne {d : Cell} (hp : d.pool ≠ p) : (w.setMask p m).taken d ↔ w.taken d := by
  simp only [taken, setMask, Function.update_of_ne hp]

theorem setMask_taken_self {d : Cell} (hp : d.pool = p) :
    (w.setMask p m).taken d ↔ m.getLsbD d.index = true := by
  simp only [taken, setMask, hp, Function.update_self]

theorem release_taken (c : Cell) (hc : c.index < 32) (d : Cell) :
    (w.release c).taken d ↔ w.taken d ∧ d ≠ c := by
  by_cases hp : d.pool = c.pool
  · rw [release, setMask_taken_self _ _ _ hp, getLsbD_clear _ hc, Ne, Ne, cell_eq_iff hp, taken, hp]
  · rw [release, setMask_taken_of_ne _ _ _ hp]
    exact ⟨fun h => ⟨h, fun hd => hp (hd ▸ rfl)⟩, And.left⟩

theorem acquire_taken {i : Nat} (hi : i < 32) (d : Cell) :
    (w.setMask p (w.masks p ||| (1#32 <<< i))).taken d ↔ w.taken d ∨ d = ⟨p, i⟩ := by
  by_cases hp : d.pool = p
  · rw [setMask_taken_self _ _ _ hp, getLsbD_set _ hi, cell_eq_iff (c := ⟨p, i⟩) hp, taken, hp]
  · rw [setMask_taken_of_ne _ _ _ hp]
    exact ⟨Or.inl, fun h => h.resolve_right fun hd => hp (hd ▸ rfl)⟩

end World

/-! ## What one access does -/

/-- Everything a step can do, with what it found. -/
inductive Stepped (served : Nat → Bool) (w : World) : Act → World → Prop
  | refuse (t p x : Nat) : served p = false → w.threads t = .idle → w.objects x = .absent →
      Stepped served w (.loan t p x) (w.setObject x (.held {}))
  | begin (t p x : Nat) : w.threads t = .idle → w.objects x = .absent →
      Stepped served w (.loan t p x) ((w.setObject x .inUse).setThread t (.load p x))
  | moveNew (t x y : Nat) (l : Loan) : w.objects x = .held l → w.objects y = .absent →
      Stepped served w (.moveNew t x y) ((w.setObject x (.held {})).setObject y (.held l))
  | stay (t x : Nat) : Stepped served w (.moveAssign t x x) w
  | assign (t x y : Nat) (dst src : Loan) (old : Cell) : w.threads t = .idle → x ≠ y →
      w.objects x = .held dst → w.objects y = .held src → dst.cell = some old →
      Stepped served w (.moveAssign t x y)
        (((w.setObject x .inUse).setObject y .inUse).setThread t (.assign x y old src))
  | replace (t x y : Nat) (dst src : Loan) : x ≠ y → w.objects x = .held dst →
      w.objects y = .held src → dst.cell = none →
      Stepped served w (.moveAssign t x y)
        ((w.setObject y (.held {})).setObject x (.held src))
  | destroy (t x : Nat) (l : Loan) (old : Cell) : w.threads t = .idle → w.objects x = .held l →
      l.cell = some old →
      Stepped served w (.destroy t x) ((w.setObject x .inUse).setThread t (.destroy x old))
  | discard (t x : Nat) (l : Loan) : w.objects x = .held l → l.cell = none →
      Stepped served w (.destroy t x) (w.setObject x .absent)
  | publish (t x : Nat) (l : Loan) (cell : Cell) : w.threads t = .idle → w.objects x = .held l →
      l.cell = some cell →
      Stepped served w (.publish t x) ((w.setObject x (.held {})).setThread t (.publish cell))
  | forget (t x : Nat) (l : Loan) : w.objects x = .held l → l.cell = none →
      Stepped served w (.publish t x) (w.setObject x (.held {}))
  | read (t p x : Nat) (weak : Bool) : (w.threads t = .load p x ∨ ∃ m, w.threads t = .cas p x m) →
      Stepped served w (.go t weak) (w.setThread t (.cas p x (w.masks p)))
  | exhaust (t p x : Nat) (weak : Bool) (m : Mask) : w.threads t = .cas p x m →
      freeIndex m = none →
      Stepped served w (.go t weak) ((w.setObject x (.held {})).setThread t .idle)
  | win (t p x i : Nat) (weak : Bool) : w.threads t = .cas p x (w.masks p) →
      freeIndex (w.masks p) = some i →
      Stepped served w (.go t weak)
        ((w.setMask p (w.masks p ||| (1#32 <<< i))).setThread t (.acquired p x i))
  | hand (t p x i : Nat) (weak : Bool) : w.threads t = .acquired p x i →
      Stepped served w (.go t weak) ((w.setObject x
        (.held { slot := some i, status := .ok, pool := some p })).setThread t .idle)
  | assigned (t x y : Nat) (weak : Bool) (old : Cell) (src : Loan) :
      w.threads t = .assign x y old src →
      Stepped served w (.go t weak)
        ((((w.release old).setObject x (.held src)).setObject y (.held {})).setThread t .idle)
  | destroyed (t x : Nat) (weak : Bool) (old : Cell) : w.threads t = .destroy x old →
      Stepped served w (.go t weak) (((w.release old).setObject x .absent).setThread t .idle)
  | published (t : Nat) (weak : Bool) (cell : Cell) : w.threads t = .publish cell →
      Stepped served w (.go t weak) ((w.release cell).setThread t .idle)

theorem stepped_of_step {served : Nat → Bool} {w w' : World} {a : Act}
    (h : w.step served a = some w') : Stepped served w a w' := by
  cases a with
  | loan t p x =>
      simp only [World.step] at h
      split at h
      · next ht hx =>
          split at h <;> cases h
          · exact .begin t p x ht hx
          · next hserved => exact .refuse t p x (Bool.not_eq_true _ ▸ hserved) ht hx
      · cases h
  | moveNew t x y =>
      simp only [World.step] at h
      split at h
      · next l _ hx hy =>
          cases h
          exact .moveNew t x y l hx hy
      · cases h
  | moveAssign t x y =>
      simp only [World.step] at h
      split at h
      · next dst src ht hx hy =>
          split at h
          · next hxy =>
              subst hxy
              cases h
              exact .stay t x
          · next hxy =>
              split at h <;> cases h
              · next old hold => exact .assign t x y dst src old ht hxy hx hy hold
              · next hnone => exact .replace t x y dst src hxy hx hy hnone
      · cases h
  | destroy t x =>
      simp only [World.step] at h
      split at h
      · next l ht hx =>
          split at h <;> cases h
          · next old hold => exact .destroy t x l old ht hx hold
          · next hnone => exact .discard t x l hx hnone
      · cases h
  | publish t x =>
      simp only [World.step] at h
      split at h
      · next l ht hx =>
          split at h <;> cases h
          · next cell hcell => exact .publish t x l cell ht hx hcell
          · next hnone => exact .forget t x l hx hnone
      · cases h
  | go t weak =>
      simp only [World.step] at h
      split at h
      · cases h
      · next p x hpc =>
          cases h
          exact .read t p x weak (.inl hpc)
      · next p x m hpc =>
          split at h
          · next hfull =>
              cases h
              exact .exhaust t p x weak m hpc hfull
          · next i hi =>
              split at h <;> cases h
              · next hcas =>
                  obtain ⟨rfl, -⟩ := hcas
                  exact .win t p x i weak hpc hi
              · exact .read t p x weak (.inr ⟨m, hpc⟩)
      · next p x i hpc =>
          cases h
          exact .hand t p x i weak hpc
      · next x y old src hpc =>
          cases h
          exact .assigned t x y weak old src hpc
      · next x old hpc =>
          cases h
          exact .destroyed t x weak old hpc
      · next cell hpc =>
          cases h
          exact .published t weak cell hpc

/-! ## Loan variables have one user -/

/-- A variable in use is used by one thread, and an assignment has two of them. -/
structure Usage (w : World) : Prop where
  busy : ∀ t x, x ∈ (w.threads t).uses → w.objects x = .inUse
  alone : ∀ t t' x, x ∈ (w.threads t).uses → x ∈ (w.threads t').uses → t = t'
  pair : ∀ t x y old src, w.threads t = .assign x y old src → x ≠ y

namespace Usage

variable {w : World} (h : Usage w)
include h

theorem unused {x : Nat} (hx : w.objects x ≠ .inUse) (t : Nat) : x ∉ (w.threads t).uses :=
  fun hu => hx (h.busy t x hu)

theorem setObject {x : Nat} (hx : ∀ t, x ∉ (w.threads t).uses) (o : Object) :
    Usage (w.setObject x o) := by
  refine ⟨fun t z hz => ?_, h.alone, h.pair⟩
  have hzx : z ≠ x := by
    rintro rfl
    exact hx t hz
  rw [World.setObject_ne _ _ _ hzx]
  exact h.busy t z hz

theorem setThread {t : Nat} {pc : Pc} (hin : ∀ x ∈ pc.uses, w.objects x = .inUse)
    (hother : ∀ u x, x ∈ pc.uses → x ∈ (w.threads u).uses → u = t)
    (hpair : ∀ x y old src, pc = .assign x y old src → x ≠ y) : Usage (w.setThread t pc) := by
  refine ⟨fun u x hx => ?_, fun u u' x hx hx' => ?_, fun u x y old src hpc => ?_⟩
  · by_cases hu : u = t
    · subst hu
      rw [World.setThread_self] at hx
      exact hin x hx
    · rw [World.setThread_ne _ _ _ hu] at hx
      exact h.busy u x hx
  · by_cases hu : u = t
    · subst hu
      rw [World.setThread_self] at hx
      by_cases hu' : u' = u
      · exact hu'.symm
      · rw [World.setThread_ne _ _ _ hu'] at hx'
        exact (hother u' x hx hx').symm
    · rw [World.setThread_ne _ _ _ hu] at hx
      by_cases hu' : u' = t
      · subst hu'
        rw [World.setThread_self] at hx'
        exact hother u x hx' hx
      · rw [World.setThread_ne _ _ _ hu'] at hx'
        exact h.alone u u' x hx hx'
  · by_cases hu : u = t
    · subst hu
      rw [World.setThread_self] at hpc
      exact hpair x y old src hpc
    · rw [World.setThread_ne _ _ _ hu] at hpc
      exact h.pair u x y old src hpc

/-- A thread goes on with the same variables. -/
theorem goOn {t : Nat} {pc : Pc} (hin : ∀ x ∈ pc.uses, x ∈ (w.threads t).uses)
    (hpair : ∀ x y old src, pc = .assign x y old src → x ≠ y) : Usage (w.setThread t pc) :=
  h.setThread (fun x hx => h.busy t x (hin x hx)) (fun u x hx hu => h.alone u t x hu (hin x hx))
    hpair

theorem rest (t : Nat) : Usage (w.setThread t .idle) :=
  h.goOn (fun _ hz => (nomatch hz)) fun _ _ _ _ h0 => (nomatch h0)

/-- The variables of a thread that is done are nobody's. -/
theorem unused_of_rest {t x : Nat} {pc : Pc} (ht : w.threads t = pc) (hx : x ∈ pc.uses) (u : Nat) :
    x ∉ ((w.setThread t .idle).threads u).uses := by
  intro hu
  rw [← ht] at hx
  by_cases hut : u = t
  · subst hut
    rw [World.setThread_self] at hu
    cases hu
  · rw [World.setThread_ne _ _ _ hut] at hu
    exact hut (h.alone u t x hu hx)

end Usage

theorem Usage.next {served : Nat → Bool} {w w' : World} {a : Act} (h : Usage w)
    (hs : Stepped served w a w') : Usage w' := by
  have hheld : ∀ {x l}, w.objects x = .held l → w.objects x ≠ .inUse := by
    intro x l hx
    rw [hx]
    exact fun h0 => (nomatch h0)
  have habsent : ∀ {x}, w.objects x = .absent → w.objects x ≠ .inUse := by
    intro x hx
    rw [hx]
    exact fun h0 => (nomatch h0)
  -- a thread picks up a variable nobody uses
  have hpick : ∀ {t x pc}, w.objects x ≠ .inUse → pc.uses = [x] →
      (∀ x y old src, pc ≠ .assign x y old src) →
      Usage ((w.setObject x .inUse).setThread t pc) := by
    intro t x pc hx hpc hno
    refine (h.setObject (h.unused hx) _).setThread (fun z hz => ?_) (fun u z hz hu => ?_)
      fun x y old src h0 => absurd h0 (hno x y old src)
    · rw [hpc, List.mem_singleton] at hz
      rw [hz, World.setObject_self]
    · rw [hpc, List.mem_singleton] at hz
      exact absurd (hz ▸ hu) (h.unused hx u)
  have mem_pair : ∀ {x y z : Nat}, z ∈ [x, y] ↔ z = x ∨ z = y := by
    intro x y z
    rw [List.mem_cons, List.mem_singleton]
  cases hs with
  | refuse t p x _ _ hx => exact h.setObject (h.unused (habsent hx)) _
  | begin t p x _ hx =>
      exact hpick (habsent hx) rfl fun _ _ _ _ h0 => (nomatch h0)
  | moveNew t x y l hx hy =>
      exact (h.setObject (h.unused (hheld hx)) _).setObject (h.unused (habsent hy)) _
  | stay t x => exact h
  | assign t x y dst src old _ hxy hx hy _ =>
      have hx' := h.unused (hheld hx)
      have hy' := h.unused (hheld hy)
      refine ((h.setObject hx' _).setObject hy' _).setThread (fun z hz => ?_) (fun u z hz hu => ?_)
        fun _ _ _ _ h0 => ?_
      · rcases mem_pair.mp hz with rfl | rfl
        · rw [World.setObject_ne _ _ _ hxy, World.setObject_self]
        · rw [World.setObject_self]
      · rcases mem_pair.mp hz with rfl | rfl
        · exact absurd hu (hx' u)
        · exact absurd hu (hy' u)
      · cases h0
        exact hxy
  | replace t x y dst src _ hx hy _ =>
      exact (h.setObject (h.unused (hheld hy)) _).setObject (h.unused (hheld hx)) _
  | destroy t x l old _ hx _ => exact hpick (hheld hx) rfl fun _ _ _ _ h0 => (nomatch h0)
  | discard t x l hx _ => exact h.setObject (h.unused (hheld hx)) _
  | publish t x l cell _ hx _ =>
      exact (h.setObject (h.unused (hheld hx)) _).goOn (fun _ hz => (nomatch hz))
        fun _ _ _ _ h0 => (nomatch h0)
  | forget t x l hx _ => exact h.setObject (h.unused (hheld hx)) _
  | read t p x weak hpc =>
      refine h.goOn (fun z hz => ?_) fun _ _ _ _ h0 => (nomatch h0)
      rcases hpc with hpc | ⟨m, hpc⟩ <;> rw [hpc] <;> exact hz
  | exhaust t p x weak m hpc _ =>
      exact (h.rest t).setObject (h.unused_of_rest hpc (List.mem_singleton_self x)) _
  | win t p x i weak hpc _ =>
      have h' : Usage (w.setMask p (w.masks p ||| (1#32 <<< i))) := ⟨h.busy, h.alone, h.pair⟩
      refine h'.goOn (fun z hz => ?_) fun _ _ _ _ h0 => (nomatch h0)
      rw [World.setMask, hpc]
      exact hz
  | hand t p x i weak hpc =>
      exact (h.rest t).setObject (h.unused_of_rest hpc (List.mem_singleton_self x)) _
  | assigned t x y weak old src hpc =>
      have h' : Usage (w.release old) := ⟨h.busy, h.alone, h.pair⟩
      have hxu := h'.unused_of_rest hpc (List.mem_cons_self (a := x))
      have hyu := h'.unused_of_rest hpc (List.mem_cons_of_mem x (List.mem_singleton_self y))
      exact ((h'.rest t).setObject hxu _).setObject hyu _
  | destroyed t x weak old hpc =>
      have h' : Usage (w.release old) := ⟨h.busy, h.alone, h.pair⟩
      exact (h'.rest t).setObject (h'.unused_of_rest hpc (List.mem_singleton_self x)) _
  | published t weak cell hpc =>
      have h' : Usage (w.release cell) := ⟨h.busy, h.alone, h.pair⟩
      exact h'.rest t

/-! ## One owner for each bit -/

/-- `kOk` and a cell come together. -/
def Loan.Sound (l : Loan) : Prop := l.status = .ok ↔ l.cell.isSome = true

def Object.Sound : Object → Prop
  | .held l => l.Sound
  | .absent | .inUse => True

def Pc.Sound : Pc → Prop
  | .assign _ _ _ src => src.Sound
  | _ => True

structure Inv (w : World) : Prop where
  usage : Usage w
  exclusive : Exclusive w.owns w.taken
  bounded : ∀ c, w.taken c → c.index < kSlots
  objects : ∀ x, (w.objects x).Sound
  threads : ∀ t, (w.threads t).Sound

theorem sound_empty : Loan.Sound {} := ⟨fun h => (nomatch h), fun h => (nomatch h)⟩

namespace World

variable {w : World}

theorem objects_setObject {x : Nat} {o : Object} (h : ∀ z, (w.objects z).Sound) (ho : o.Sound) :
    ∀ z, ((w.setObject x o).objects z).Sound := by
  intro z
  by_cases hz : z = x
  · rw [hz, setObject_self]
    exact ho
  · rw [setObject_ne _ _ _ hz]
    exact h z

theorem threads_setThread {t : Nat} {pc : Pc} (h : ∀ u, (w.threads u).Sound) (hpc : pc.Sound) :
    ∀ u, ((w.setThread t pc).threads u).Sound := by
  intro u
  by_cases hu : u = t
  · rw [hu, setThread_self]
    exact hpc
  · rw [setThread_ne _ _ _ hu]
    exact h u

end World

theorem Inv.sound_next {served : Nat → Bool} {w w' : World} {a : Act} (h : Inv w)
    (hs : Stepped served w a w') :
    (∀ x, (w'.objects x).Sound) ∧ ∀ t, (w'.threads t).Sound := by
  have hheld : ∀ {x l}, w.objects x = .held l → l.Sound := by
    intro x l hx
    have := h.objects x
    rwa [hx] at this
  have hempty : ∀ x, ∀ z, ((w.setObject x (.held {})).objects z).Sound :=
    fun x => World.objects_setObject h.objects sound_empty
  cases hs with
  | refuse t p x _ _ _ => exact ⟨hempty x, h.threads⟩
  | begin t p x _ _ =>
      exact ⟨World.objects_setObject h.objects trivial, World.threads_setThread h.threads trivial⟩
  | moveNew t x y l hx _ => exact ⟨World.objects_setObject (hempty x) (hheld hx), h.threads⟩
  | stay t x => exact ⟨h.objects, h.threads⟩
  | assign t x y dst src old _ _ _ hy _ =>
      exact ⟨World.objects_setObject (World.objects_setObject h.objects trivial) trivial,
        World.threads_setThread h.threads (hheld hy)⟩
  | replace t x y dst src _ _ hy _ =>
      exact ⟨World.objects_setObject (hempty y) (hheld hy), h.threads⟩
  | destroy t x l old _ _ _ =>
      exact ⟨World.objects_setObject h.objects trivial, World.threads_setThread h.threads trivial⟩
  | discard t x l _ _ => exact ⟨World.objects_setObject h.objects trivial, h.threads⟩
  | publish t x l cell _ _ _ => exact ⟨hempty x, World.threads_setThread h.threads trivial⟩
  | forget t x l _ _ => exact ⟨hempty x, h.threads⟩
  | read t p x weak _ => exact ⟨h.objects, World.threads_setThread h.threads trivial⟩
  | exhaust t p x weak m _ _ => exact ⟨hempty x, World.threads_setThread h.threads trivial⟩
  | win t p x i weak _ _ => exact ⟨h.objects, World.threads_setThread h.threads trivial⟩
  | hand t p x i weak _ =>
      exact ⟨World.objects_setObject h.objects ⟨fun _ => rfl, fun _ => rfl⟩,
        World.threads_setThread h.threads trivial⟩
  | assigned t x y weak old src hpc =>
      have hsrc := h.threads t
      rw [hpc] at hsrc
      exact ⟨World.objects_setObject (World.objects_setObject h.objects hsrc) sound_empty,
        World.threads_setThread h.threads trivial⟩
  | destroyed t x weak old _ =>
      exact ⟨World.objects_setObject h.objects trivial, World.threads_setThread h.threads trivial⟩
  | published t weak cell _ => exact ⟨h.objects, World.threads_setThread h.threads trivial⟩

theorem Inv.bounded_next {served : Nat → Bool} {w w' : World} {a : Act} (h : Inv w)
    (hs : Stepped served w a w') : ∀ c, w'.taken c → c.index < kSlots := by
  have hcell : ∀ {o c}, w.owns o = some c → c.index < kSlots :=
    fun ho => h.bounded _ ((h.exclusive.taken_iff _).mpr ⟨_, ho⟩)
  have hrelease : ∀ {t c d}, (w.threads t).cell = some c → (w.release c).taken d →
      d.index < kSlots := by
    intro t c d ht hd
    have hc : c.index < kSlots := hcell (o := .thread t) ht
    exact h.bounded d ((World.release_taken w c (Nat.lt_trans hc (by decide)) d).mp hd).1
  cases hs with
  | win t p x i weak _ hi =>
      intro c hc
      have hlt := (freeIndex_some hi).1
      rcases (World.acquire_taken w p (Nat.lt_trans hlt (by decide)) c).mp hc with hc | rfl
      · exact h.bounded c hc
      · exact hlt
  | assigned t x y weak old src hpc => exact fun c => hrelease (by rw [hpc]; rfl)
  | destroyed t x weak old hpc => exact fun c => hrelease (by rw [hpc]; rfl)
  | published t weak cell hpc => exact fun c => hrelease (by rw [hpc]; rfl)
  | _ => exact h.bounded

namespace World

variable {w : World}

theorem owns_object {x : Nat} {o : Object} (h : w.objects x = o) : w.owns (.object x) = o.cell :=
  congrArg Object.cell h

theorem owns_thread {t : Nat} {pc : Pc} (h : w.threads t = pc) : w.owns (.thread t) = pc.cell :=
  congrArg Pc.cell h

theorem owns_source {t : Nat} {pc : Pc} (h : w.threads t = pc) : w.owns (.source t) = pc.source :=
  congrArg Pc.source h

/-- A variable that has no cell before or after. -/
theorem setObject_owns_same {x : Nat} {o : Object} (hx : w.owns (.object x) = none)
    (ho : o.cell = none) : (w.setObject x o).owns = w.owns := by
  rw [setObject_owns, ho]
  exact Function.update_eq_self_iff.mpr hx.symm

/-- A thread that has no cell before or after, and is in no assignment. -/
theorem setThread_owns_same {t : Nat} {pc : Pc} (ht : w.owns (.thread t) = none)
    (hs : w.owns (.source t) = none) (hpc : pc.cell = none) (hsrc : pc.source = none) :
    (w.setThread t pc).owns = w.owns := by
  rw [setThread_owns_of_source w t pc hs hsrc, hpc]
  exact Function.update_eq_self_iff.mpr ht.symm

end World

namespace Inv

variable {w : World} (h : Inv w)
include h

theorem inUse {t x : Nat} {pc : Pc} (ht : w.threads t = pc) (hx : x ∈ pc.uses) :
    w.owns (.object x) = none := by
  rw [← ht] at hx
  exact World.owns_object (h.usage.busy t x hx)

/-- A variable hands its cell to a thread that was idle. -/
theorem pass {t x : Nat} {l : Loan} {o : Object} {pc : Pc} (ht : w.threads t = .idle)
    (hx : w.objects x = .held l) (ho : o.cell = none) (hcell : pc.cell = l.cell)
    (hsrc : pc.source = none) : Exclusive ((w.setObject x o).setThread t pc).owns w.taken := by
  have hl : l.cell = w.owns (.object x) := (World.owns_object hx).symm
  rw [World.setThread_owns_of_source (w.setObject x o) t pc (World.owns_source ht) hsrc,
    World.setObject_owns, ho, hcell, hl]
  exact h.exclusive.move (World.owns_thread ht)

/-- A thread releases the cell it has. -/
theorem release {t : Nat} {c : Cell} (ht : w.owns (.thread t) = some c) :
    Exclusive (Function.update w.owns (.thread t) none) (w.release c).taken := by
  have hc := h.bounded c ((h.exclusive.taken_iff c).mpr ⟨_, ht⟩)
  exact h.exclusive.drop ht (World.release_taken w c (Nat.lt_trans hc (by decide)))

/-- The target's cell goes to the thread, the source's stays with the source. -/
theorem assign {t x y : Nat} {dst src : Loan} {old : Cell} (ht : w.threads t = .idle)
    (hxy : x ≠ y) (hx : w.objects x = .held dst) (hy : w.objects y = .held src)
    (hold : dst.cell = some old) :
    Exclusive (((w.setObject x .inUse).setObject y .inUse).setThread t (.assign x y old src)).owns
      w.taken := by
  have hcell : (Pc.assign x y old src).cell = w.owns (.object x) :=
    ((World.owns_object hx).trans hold).symm
  have h1 := h.exclusive.move (a := .object x) (World.owns_thread ht)
  have hy1 : Function.update (Function.update w.owns (.object x) none) (.thread t)
      (w.owns (.object x)) (.object y) = src.cell := by
    rw [Function.update_of_ne (by simp), Function.update_of_ne (by simpa using Ne.symm hxy)]
    exact World.owns_object hy
  have h2 := h1.move (a := .object y) (b := .source t) (by
    rw [Function.update_of_ne (by simp), Function.update_of_ne (by simp)]
    exact World.owns_source ht)
  rw [hy1, Function.update_comm (by simp : Owner.thread t ≠ .object y)] at h2
  rw [World.setThread_owns, World.setObject_owns, World.setObject_owns, hcell]
  exact h2

/-- The thread drops the old cell, the target gets the source's, the source keeps none. -/
theorem assigned {t x y : Nat} {old : Cell} {src : Loan} (ht : w.threads t = .assign x y old src) :
    Exclusive ((((w.release old).setObject x (.held src)).setObject y (.held {})).setThread t
      .idle).owns (w.release old).taken := by
  have hx := h.inUse ht (List.mem_cons_self (a := x))
  have hy := h.inUse ht (List.mem_cons_of_mem x (List.mem_singleton_self y))
  have hyx : Owner.object y ≠ .object x := by simpa using (h.usage.pair t x y old src ht).symm
  have h1 := (h.release (World.owns_thread ht)).move (a := .source t) (b := .object x) (by
    rw [Function.update_of_ne (by simp)]
    exact hx)
  rw [Function.update_of_ne (by simp : Owner.source t ≠ .thread t), World.owns_source ht] at h1
  have hy' : Function.update (Function.update w.owns (.object x) src.cell) (.object y) none
      = Function.update w.owns (.object x) src.cell :=
    Function.update_eq_self_iff.mpr ((Function.update_of_ne hyx _ _).trans hy).symm
  rw [World.setThread_owns, World.setObject_owns, World.setObject_owns, World.release_owns]
  change Exclusive (Function.update (Function.update (Function.update (Function.update w.owns
    (.object x) src.cell) (.object y) none) (.thread t) none) (.source t) none) _
  rw [hy', Function.update_comm (by simp : Owner.object x ≠ .thread t),
    Function.update_comm (by simp : Owner.object x ≠ .source t)]
  exact h1

end Inv

theorem Inv.exclusive_next {served : Nat → Bool} {w w' : World} {a : Act} (h : Inv w)
    (hs : Stepped served w a w') : Exclusive w'.owns w'.taken := by
  cases hs with
  | refuse t p x _ _ hx =>
      rw [World.setObject_owns_same (World.owns_object hx) rfl]
      exact h.exclusive
  | begin t p x ht hx =>
      have hsame := World.setObject_owns_same (o := .inUse) (World.owns_object hx) rfl
      rw [World.setThread_owns_same (w := w.setObject x .inUse) (World.owns_thread ht)
        (World.owns_source ht) rfl rfl, hsame]
      exact h.exclusive
  | moveNew t x y l hx hy =>
      rw [World.setObject_owns, World.setObject_owns,
        show (Object.held l).cell = w.owns (.object x) from (World.owns_object hx).symm]
      exact h.exclusive.move (World.owns_object hy)
  | stay t x => exact h.exclusive
  | assign t x y dst src old ht hxy hx hy hold => exact h.assign ht hxy hx hy hold
  | replace t x y dst src _ hx hy hnone =>
      rw [World.setObject_owns, World.setObject_owns,
        show (Object.held src).cell = w.owns (.object y) from (World.owns_object hy).symm]
      exact h.exclusive.move ((World.owns_object hx).trans hnone)
  | destroy t x l old ht hx hold => exact h.pass ht hx rfl hold.symm rfl
  | discard t x l hx hnone =>
      rw [World.setObject_owns_same ((World.owns_object hx).trans hnone) rfl]
      exact h.exclusive
  | publish t x l cell ht hx hcell => exact h.pass ht hx rfl hcell.symm rfl
  | forget t x l hx hnone =>
      rw [World.setObject_owns_same ((World.owns_object hx).trans hnone) rfl]
      exact h.exclusive
  | read t p x weak hpc =>
      have hnone : w.owns (.thread t) = none ∧ w.owns (.source t) = none := by
        rcases hpc with hpc | ⟨m, hpc⟩ <;> exact ⟨World.owns_thread hpc, World.owns_source hpc⟩
      rw [World.setThread_owns_same hnone.1 hnone.2 rfl rfl]
      exact h.exclusive
  | exhaust t p x weak m hpc _ =>
      have hx := h.inUse hpc (List.mem_singleton_self x)
      have hsame := World.setObject_owns_same (o := .held {}) hx rfl
      rw [World.setThread_owns_same (w := w.setObject x (.held {})) (World.owns_thread hpc)
        (World.owns_source hpc) rfl rfl, hsame]
      exact h.exclusive
  | win t p x i weak hpc hi =>
      obtain ⟨hlt, hfree⟩ := freeIndex_some hi
      rw [World.setThread_owns_of_source (w.setMask p _) t _ (World.owns_source hpc) rfl]
      refine h.exclusive.take (World.owns_thread hpc) (fun hc => ?_)
        (World.acquire_taken w p (Nat.lt_trans hlt (by decide)))
      rw [World.taken, hfree] at hc
      cases hc
  | hand t p x i weak hpc =>
      have hx := h.inUse hpc (List.mem_singleton_self x)
      have hmove := h.exclusive.move (a := .thread t) hx
      rw [World.owns_thread hpc, Function.update_comm (by simp : Owner.thread t ≠ .object x)]
        at hmove
      rw [World.setThread_owns_of_source (w.setObject x _) t _ (World.owns_source hpc) rfl,
        World.setObject_owns]
      exact hmove
  | assigned t x y weak old src hpc => exact h.assigned hpc
  | destroyed t x weak old hpc =>
      have hx := h.inUse hpc (List.mem_singleton_self x)
      rw [World.setThread_owns_of_source ((w.release old).setObject x _) t _
        (World.owns_source hpc) rfl,
        World.setObject_owns_same (w := w.release old) hx rfl, World.release_owns]
      exact h.release (World.owns_thread hpc)
  | published t weak cell hpc =>
      rw [World.setThread_owns_of_source (w.release cell) t _ (World.owns_source hpc) rfl]
      exact h.release (World.owns_thread hpc)

theorem Inv.next {served : Nat → Bool} {w w' : World} {a : Act} (h : Inv w)
    (hs : Stepped served w a w') : Inv w' where
  usage := h.usage.next hs
  exclusive := h.exclusive_next hs
  bounded := h.bounded_next hs
  objects := (h.sound_next hs).1
  threads := (h.sound_next hs).2

theorem inv_start : Inv {} where
  usage := ⟨fun _ _ hx => (nomatch hx), fun _ _ _ hx => (nomatch hx),
    fun _ _ _ _ _ h => (nomatch h)⟩
  exclusive := by
    have hnone : ∀ o, World.owns {} o = none := fun o => by cases o <;> rfl
    refine ⟨fun c => ⟨fun h => ?_, ?_⟩, fun o o' c ho => ?_⟩
    · simp [World.taken] at h
    · rintro ⟨o, ho⟩
      rw [hnone o] at ho
      cases ho
    · rw [hnone o] at ho
      cases ho
  bounded c h := by simp [World.taken] at h
  objects _ := trivial
  threads _ := trivial

/-! ## What `Loan()` returns -/

/-- A call of `Loan()` that has returned: what it reported, and the masks it had read. -/
structure Answer where
  publisher : Nat
  status : LoanStatus
  reads : List Mask
  deriving DecidableEq, Repr

/-- The calls that have returned, and what the call a thread is in has read. -/
structure Log where
  reads : Nat → List Mask := fun _ => []
  answers : List Answer := []

/-- The call of thread `t` returns variable `x`. -/
def Log.answer (log : Log) (w : World) (p x : Nat) (reads : List Mask) : Log :=
  match w.objects x with
  | .held l => { log with answers := log.answers ++ [⟨p, l.status, reads⟩] }
  | .absent | .inUse => log

/-- A round of the loop that does not end the call leaves a mask in `mask`. -/
def noteLoan (w : World) (a : Act) (w' : World) (log : Log) : Log :=
  match a with
  | .loan t p x =>
      { log with reads := Function.update log.reads t [] }.answer w' p x []
  | .go t _ =>
      match w.threads t, w'.threads t with
      | .load _ _, .cas _ _ m | .cas _ _ _, .cas _ _ m =>
          { log with reads := Function.update log.reads t (m :: log.reads t) }
      | .cas p x _, .idle | .acquired p x _, .idle => log.answer w' p x (log.reads t)
      | _, _ => log
  | _ => log

def machine (served : Nat → Bool) : Machine World Act where
  start w := w = {}
  step := World.step served

/-- The machine with its log. -/
def logged (served : Nat → Bool) : Machine (World × Log) Act :=
  (machine served).withHistory {} noteLoan

/-- All bits of the pool. -/
def Full (m : Mask) : Prop := ∀ i < kSlots, m.getLsbD i = true

/-- An answer is not `kExhausted` unless a full mask has been read. -/
def Answer.Justified (served : Nat → Bool) (r : Answer) : Prop :=
  r.status = .exhausted → served r.publisher = true → ∃ m ∈ r.reads, Full m

/-- What the log says of the calls in progress and of those that have returned. -/
structure Logged (served : Nat → Bool) (w : World) (log : Log) : Prop where
  read : ∀ t p x m, w.threads t = .cas p x m → m ∈ log.reads t
  justified : ∀ r ∈ log.answers, r.Justified served

namespace Logged

variable {served : Nat → Bool} {w w' : World} {log : Log}

theorem answer (h : Logged served w log) {p x : Nat} {l : Loan} {reads : List Mask}
    (hl : w.objects x = .held l) (hr : Answer.Justified served ⟨p, l.status, reads⟩) :
    Logged served w (log.answer w p x reads) := by
  rw [Log.answer, hl]
  refine ⟨h.read, fun r hr' => ?_⟩
  rcases List.mem_append.mp hr' with hr' | hr'
  · exact h.justified r hr'
  · rw [List.mem_singleton.mp hr']
    exact hr

/-- No thread has come into the loop. -/
theorem mono (h : Logged served w log)
    (hcas : ∀ t p x m, w'.threads t = .cas p x m → w.threads t = .cas p x m) :
    Logged served w' log :=
  ⟨fun t p x m ht => h.read t p x m (hcas t p x m ht), h.justified⟩

theorem setThread (h : Logged served w log) {t : Nat} {pc : Pc} (hpc : ∀ p x m, pc ≠ .cas p x m) :
    Logged served (w.setThread t pc) log := by
  refine h.mono fun u p x m hu => ?_
  by_cases hut : u = t
  · subst hut
    rw [World.setThread_self] at hu
    exact absurd hu (hpc p x m)
  · rwa [World.setThread_ne _ _ _ hut] at hu

/-- A thread reads a mask, and has it in its loop. -/
theorem reads (h : Logged served w log) (t p x : Nat) (m : Mask) (ms : List Mask) :
    Logged served (w.setThread t (.cas p x m))
      { log with reads := Function.update log.reads t (m :: ms) } := by
  refine ⟨fun u q y n hu => ?_, h.justified⟩
  by_cases hut : u = t
  · subst hut
    rw [World.setThread_self] at hu
    cases hu
    simp
  · rw [World.setThread_ne _ _ _ hut] at hu
    simpa only [Function.update_of_ne hut] using h.read u q y n hu

/-- A thread that is in no loop starts a new call. -/
theorem reset (h : Logged served w log) {t : Nat} (ht : ∀ p x m, w.threads t ≠ .cas p x m) :
    Logged served w { log with reads := Function.update log.reads t [] } := by
  refine ⟨fun u p x m hu => ?_, h.justified⟩
  have hut : u ≠ t := by
    rintro rfl
    exact ht p x m hu
  simpa only [Function.update_of_ne hut] using h.read u p x m hu

theorem next {a : Act} (h : Logged served w log) (hs : Stepped served w a w') :
    Logged served w' (noteLoan w a w' log) := by
  have hidle : ∀ {t}, w.threads t = .idle → ∀ p x m, w.threads t ≠ .cas p x m := by
    intro t ht p x m h0
    rw [ht] at h0
    cases h0
  -- what the threads do not see
  have hobject : ∀ {v : World} {lg x o}, Logged served v lg → Logged served (v.setObject x o) lg :=
    fun hv => ⟨hv.read, hv.justified⟩
  have hrelease : ∀ c, Logged served (w.release c) log := fun c => ⟨h.read, h.justified⟩
  cases hs with
  | refuse t p x hserved ht hx =>
      refine (hobject (h.reset (hidle ht))).answer (World.setObject_self _ _ _) fun _ hs => ?_
      rw [hserved] at hs
      cases hs
  | begin t p x ht hx =>
      rw [noteLoan, Log.answer, World.setThread_objects, World.setObject_self]
      exact (hobject (h.reset (hidle ht))).setThread fun _ _ _ h0 => (nomatch h0)
  | moveNew t x y l _ _ => exact hobject (hobject h)
  | stay t x => exact h
  | assign t x y dst src old _ _ _ _ _ =>
      exact (hobject (hobject h)).setThread fun _ _ _ h0 => (nomatch h0)
  | replace t x y dst src _ _ _ _ => exact hobject (hobject h)
  | destroy t x l old _ _ _ => exact (hobject h).setThread fun _ _ _ h0 => (nomatch h0)
  | discard t x l _ _ => exact hobject h
  | publish t x l cell _ _ _ => exact (hobject h).setThread fun _ _ _ h0 => (nomatch h0)
  | forget t x l _ _ => exact hobject h
  | read t p x weak hpc =>
      have hnote : noteLoan w (.go t weak) (w.setThread t (.cas p x (w.masks p))) log
          = { log with reads := Function.update log.reads t (w.masks p :: log.reads t) } := by
        rw [noteLoan, World.setThread_self]
        rcases hpc with hpc | ⟨m, hpc⟩ <;> rw [hpc]
      rw [hnote]
      exact h.reads t p x _ _
  | exhaust t p x weak m hpc hfull =>
      rw [noteLoan, World.setThread_self, hpc]
      have h' : Logged served ((w.setObject x (.held {})).setThread t .idle) log :=
        (hobject h).setThread fun _ _ _ h0 => (nomatch h0)
      refine h'.answer (World.setObject_self _ _ _) fun _ _ => ?_
      exact ⟨m, h.read t p x m hpc, fun i hi => freeIndex_none hfull hi⟩
  | win t p x i weak hpc _ =>
      rw [noteLoan, World.setThread_self, hpc]
      have h' : Logged served (w.setMask p (w.masks p ||| (1#32 <<< i))) log :=
        ⟨h.read, h.justified⟩
      exact h'.setThread fun _ _ _ h0 => (nomatch h0)
  | hand t p x i weak hpc =>
      rw [noteLoan, World.setThread_self, hpc]
      have h' : Logged served ((w.setObject x (.held ⟨some i, .ok, some p⟩)).setThread t .idle)
          log := (hobject h).setThread fun _ _ _ h0 => (nomatch h0)
      exact h'.answer (World.setObject_self _ _ _) fun h0 => (nomatch h0)
  | assigned t x y weak old src hpc =>
      rw [noteLoan, World.setThread_self, hpc]
      exact (hobject (hobject (hrelease old))).setThread fun _ _ _ h0 => (nomatch h0)
  | destroyed t x weak old hpc =>
      rw [noteLoan, World.setThread_self, hpc]
      exact (hobject (hrelease old)).setThread fun _ _ _ h0 => (nomatch h0)
  | published t weak cell hpc =>
      rw [noteLoan, World.setThread_self, hpc]
      exact (hrelease cell).setThread fun _ _ _ h0 => (nomatch h0)

end Logged

/-! ## Any interleaving -/

section Runs

variable {served : Nat → Bool} {w : World} {log : Log}

theorem inv_reached (h : (logged served).Reached anyStep (w, log)) : Inv w := by
  refine Machine.Reached.invariant (P := fun q : World × Log => Inv q.1) ?_ ?_ h
  · rintro ⟨v, lg⟩ ⟨hv, -⟩
    rw [show v = {} from hv]
    exact inv_start
  · intro q a q' _ hq _ hs
    exact hq.next (stepped_of_step (Machine.withHistory_step hs).1)

theorem logged_reached (h : (logged served).Reached anyStep (w, log)) : Logged served w log := by
  refine Machine.Reached.invariant (P := fun q : World × Log => Logged served q.1 q.2) ?_ ?_ h
  · rintro ⟨v, lg⟩ ⟨hv, hlg⟩
    rw [show v = {} from hv, show lg = {} from hlg]
    exact ⟨fun _ _ _ _ h0 => (nomatch h0), fun _ h0 => (nomatch h0)⟩
  · intro q a q' _ hq _ hs
    obtain ⟨hst, hnote⟩ := Machine.withHistory_step hs
    rw [hnote]
    exact hq.next (stepped_of_step hst)

/-- A pool whose cells nobody owns has an empty mask. -/
theorem Inv.mask_eq_zero (h : Inv w) {p : Nat} (hp : ∀ o c, w.owns o = some c → c.pool ≠ p) :
    w.masks p = 0 := by
  refine BitVec.eq_of_getLsbD_eq fun i _ => ?_
  change _ = (0#32).getLsbD i
  rw [BitVec.getLsbD_zero, Bool.eq_false_iff]
  intro hi
  obtain ⟨o, ho⟩ := (h.exclusive.taken_iff ⟨p, i⟩).mp hi
  exact hp o _ ho rfl

/-- Two live loans in status `kOk` are in different cells; a bit of a mask is set exactly
while its cell has an owner, and then it has one; an answer `kExhausted` of a publisher
in service has seen a full mask; a pool without owners has an empty mask. -/
theorem loans_exclusive (h : (logged served).Reached anyStep (w, log)) :
    (∀ x l, w.objects x = .held l → (l.status = .ok ↔ l.cell.isSome = true)) ∧
      (∀ x y l l', w.objects x = .held l → w.objects y = .held l' → l.status = .ok →
        l'.status = .ok → l.cell = l'.cell → x = y) ∧
      (∀ p i, (w.masks p).getLsbD i = true ↔ ∃! o, w.owns o = some ⟨p, i⟩) ∧
      (∀ r ∈ log.answers, r.status = .exhausted → served r.publisher = true →
        ∃ m ∈ r.reads, Full m) ∧
      ∀ p, (∀ o c, w.owns o = some c → c.pool ≠ p) → w.masks p = 0 := by
  have hinv := inv_reached h
  have hsound : ∀ x l, w.objects x = .held l → (l.status = .ok ↔ l.cell.isSome = true) := by
    intro x l hx
    have := hinv.objects x
    rwa [hx] at this
  refine ⟨hsound, fun x y l l' hx hy hl _ heq => ?_, fun p i => hinv.exclusive.existsUnique ⟨p, i⟩,
    (logged_reached h).justified, fun p => hinv.mask_eq_zero⟩
  obtain ⟨c, hc⟩ := Option.isSome_iff_exists.mp ((hsound x l hx).mp hl)
  have hox : w.owns (.object x) = some c := (congrArg Object.cell hx).trans hc
  have hoy : w.owns (.object y) = some c := (congrArg Object.cell hy).trans (heq.symm.trans hc)
  exact Owner.object.inj (hinv.exclusive.once _ _ c hox hoy)

end Runs

/-- Two threads race for cell 0, six more loans follow and one too many; then variable 0
is moved to 9, 9 assigned to 1, and 2 published. -/
def crowd : List Act :=
  [Act.loan 0 0 0, Act.loan 1 0 1, Act.go 0 false, Act.go 1 false, Act.go 0 false,
    Act.go 1 false, Act.go 1 false, Act.go 0 false, Act.go 1 false] ++
  (List.range 6).flatMap (fun i =>
    [Act.loan 0 0 (i + 2), Act.go 0 false, Act.go 0 false, Act.go 0 false]) ++
  [Act.loan 1 0 8, Act.go 1 false, Act.go 1 false, Act.moveNew 0 0 9, Act.moveAssign 0 1 9,
    Act.go 0 false, Act.publish 0 2, Act.go 0 false]

theorem loans_exclusive_crowd : ∃ w log,
    (logged fun _ => true).Reached anyStep (w, log) ∧ w.masks 0 = 249#32 ∧
      (∃! o, w.owns o = some ⟨0, 0⟩) ∧
      log.answers.getLast? = some ⟨0, .exhausted, [255#32]⟩ ∧ Full 255#32 := by
  have hrun : ((logged fun _ => true).exec crowd ({}, {})).map
      (fun q => (q.1.masks 0, q.2.answers.getLast?)) =
      some (249#32, some ⟨0, .exhausted, [255#32]⟩) := by rfl
  obtain ⟨⟨w, log⟩, hw, hq⟩ := Option.map_eq_some_iff.mp hrun
  obtain ⟨hmask, hlast⟩ := Prod.mk.inj hq
  have hstart : (logged fun _ => true).Reached anyStep ({}, {}) := .start ⟨rfl, rfl⟩
  have hr := Machine.reached_of_exec hstart hw
  obtain ⟨-, -, hbits, hanswers, -⟩ := loans_exclusive hr
  obtain ⟨m, hm, hfull⟩ := hanswers _ (List.mem_of_getLast? hlast) rfl rfl
  rw [List.mem_singleton.mp hm] at hfull
  have hbit : (w.masks 0).getLsbD 0 = true := by
    rw [show w.masks 0 = 249#32 from hmask]
    decide
  exact ⟨w, log, hr, hmask, (hbits 0 0).mp hbit, hlast, hfull⟩

end Xmmsg.Loans
