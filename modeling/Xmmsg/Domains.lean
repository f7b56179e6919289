import Xmmsg.InProc.Census
import Xmmsg.Shm.Discovery
import Xmmsg.Sys.Shared

/-!
# The domains of one process

`domain.cpp` as a program sees it: any number of `Domain` objects of any reach, opened
under any names, moved and destroyed, and the endpoints that were wired through them.
An in-process domain and the endpoints wired through it hold a `DomainState` by
`shared_ptr`, and `AcquireDomainState` finds it again by its isolation key through a
`weak_ptr`; the blocks, the counts and the table are those of `Sys/Shared.lean`. The
registry inside a state is `InProc/Registry.lean`.

A shm domain has a key and no state: its registry is `/dev/shm`, and what a wiring verb
finds there is an input here. The other two reaches have neither.

`domains_isolated` is what the isolation key promises. Domains of one key share one
state for as long as anybody holds it, be it a domain or an endpoint that has outlived
its domain; and the registry of a state goes through the steps of a program that has
that domain for itself, so what `Census.lean` has about one domain is about each of
several.
-/

namespace Xmmsg.Domains

open Xmmsg.Sys Xmmsg.InProc

/-! ## The model -/

inductive Contract where
  | latestOnly
  | boundedQueue
  | reliableQueue
  | zeroCopyLoan
  | lateJoinWarmStart
  | requestResponse
  | deadline
  | sharedOwnership
  deriving DecidableEq, Repr

inductive Reach where
  | inProcess
  | posixShm
  | iceoryx2
  | zenoh
  deriving DecidableEq, Repr

/-- `DomainImpl`; `state` is the address of the `DomainState` it holds. -/
structure DomainImpl where
  reach : Reach
  state : Option Nat := none
  shmKey : List Char := []
  deriving DecidableEq, Repr

def DomainImpl.available (x : DomainImpl) : Bool := x.state.isSome || !x.shmKey.isEmpty

/-- The shm branch of `Advertise` and `Subscribe`. -/
def DomainImpl.onShm (x : DomainImpl) : Bool := x.reach == .posixShm && !x.shmKey.isEmpty

/-- `Domain::Supports`; a moved-from domain has no impl. -/
def supports (impl : Option DomainImpl) (contract : Contract) : Bool :=
  match impl with
  | none => false
  | some x =>
      if x.available then
        match x.reach with
        | .posixShm =>
            match contract with
            | .latestOnly | .boundedQueue | .lateJoinWarmStart | .deadline => true
            | .reliableQueue | .zeroCopyLoan | .requestResponse | .sharedOwnership => false
        | .inProcess | .iceoryx2 | .zenoh => true
      else false

variable {τ : Type}

/-- An allocated endpoint impl with its `state_`, which is set when the wiring is `kOk`. -/
structure HeldImpl (τ : Type) where
  impl : EndpointImpl τ
  state : Option Nat := none

/-- A process: the `DomainState`s and their registry, the `Domain` objects that exist,
each with its impl, and the endpoints as in `Program`. -/
structure Process (τ : Type) where
  states : Pool (List Char) (DomainState τ) := { blocks := fun _ => { key := [], body := {} } }
  domains : List (Nat × Option DomainImpl) := []
  heap : List (Nat × HeldImpl τ) := []
  allocs : Nat := 0
  handles : Nat → Option (Option Nat) := fun _ => none

/-- One operation. `d` and `e` are `Domain` objects, `v` and `u` endpoint handles; `shm`
is what the shm reach answers, should the domain be there. -/
inductive Act (τ : Type) where
  | inProcess (d : Nat) (name : List Char)
  | posixShm (d : Nat) (name : List Char)
  | iceoryx2 (d : Nat)
  | zenoh (d : Nat)
  | moveDomain (d e : Nat)
  | assignDomain (d e : Nat)
  | destroyDomain (d : Nat)
  | advertise (v d : Nat) (topic : String) (t : τ) (qos : Qos) (shm : AdvertiseStatus)
  | subscribe (v d : Nat) (topic : String) (t : τ) (qos : Qos) (shm : AdvertiseStatus)
  | serve (v d : Nat) (topic : String) (req rsp : τ)
  | client (v d : Nat) (topic : String) (req rsp : τ)
  | moveConstruct (v u : Nat)
  | moveAssign (v u : Nat)
  | destroy (v : Nat)

namespace Act

/-- The domain a wiring verb is called on. -/
def domain : Act τ → Option Nat
  | .advertise _ d _ _ _ _ | .subscribe _ d _ _ _ _ | .serve _ d _ _ _ | .client _ d _ _ _ =>
      some d
  | _ => none

/-- The same operation in a program over one domain; `live` if this is the domain. -/
def wireOp (live : Bool) : Act τ → Option (WireOp τ)
  | .advertise v _ topic t qos _ => some (.advertise v live topic t qos)
  | .subscribe v _ topic t qos _ => some (.subscribe v live topic t qos)
  | .serve v _ topic req rsp => some (.serve v live topic req rsp)
  | .client v _ topic req rsp => some (.client v live topic req rsp)
  | .moveConstruct v u => some (.moveConstruct v u)
  | .moveAssign v u => some (.moveAssign v u)
  | .destroy v => some (.destroy v)
  | _ => none

/-- The answer of the shm reach, to the verbs it has. -/
def shmStatus : Act τ → Option AdvertiseStatus
  | .advertise _ _ _ _ _ shm | .subscribe _ _ _ _ _ shm => some shm
  | _ => none

/-- The handle whose impl the operation deletes. -/
def deletes : Act τ → Option Nat
  | .moveAssign v u => if v = u then none else some v
  | .destroy v => some v
  | _ => none

end Act

/-- An object taken out of the list of those that exist. -/
def pull {α : Type} (d : Nat) (l : List (Nat × α)) : Option (α × List (Nat × α)) :=
  (l.lookup d).map fun x => (x, l.eraseP (·.1 == d))

/-- `delete impl_` of a `Domain`. -/
def deleteDomain (states : Pool (List Char) (DomainState τ)) (impl : Option DomainImpl) :
    Pool (List Char) (DomainState τ) :=
  match impl.bind (·.state) with
  | some s => states.release s
  | none => states

/-- `delete impl_` of an endpoint: the destructor's body, then that of `state_`. -/
def deleteEndpoint (states : Pool (List Char) (DomainState τ)) (i : Nat) (x : HeldImpl τ) :
    Pool (List Char) (DomainState τ) :=
  match x.state with
  | some s => (states.modify s (·.unregister i x.impl)).release s
  | none => states

namespace Process

/-- A new `Domain` object. -/
def openDomain (w : Process τ) (d : Nat) (impl : DomainImpl) : Option (Process τ) :=
  match w.domains.lookup d with
  | none => some { w with domains := (d, some impl) :: w.domains }
  | some _ => none

def delete (w : Process τ) : Option Nat → Process τ
  | none => w
  | some i =>
      match w.heap.lookup i with
      | none => w
      | some x =>
          { w with states := deleteEndpoint w.states i x, heap := w.heap.eraseP (·.1 == i) }

/-- A wiring verb returns: its impl is on the heap and handle `v` holds it. -/
def mint (w : Process τ) (v : Nat) (states : Pool (List Char) (DomainState τ)) (x : HeldImpl τ) :
    Process τ :=
  { w with
    states := states
    heap := (w.allocs, x) :: w.heap
    allocs := w.allocs + 1
    handles := Function.update w.handles v (some (some w.allocs)) }

def point (w : Process τ) (v : Nat) (h : Option (Option Nat)) : Process τ :=
  { w with handles := Function.update w.handles v h }

/-- What a wiring verb reads of a state. -/
def seen (w : Process τ) (s : Nat) : Program τ :=
  { state := (w.states.blocks s).body, allocs := w.allocs }

variable [DecidableEq τ] (schemaHashOf : τ → UInt64)

/-- A wiring verb on a domain with this impl: the handle, the states after it and the new
endpoint impl. An endpoint that is wired holds the state from then on. -/
def wire (w : Process τ) (impl : Option DomainImpl) (a : Act τ) :
    Option (Nat × Pool (List Char) (DomainState τ) × HeldImpl τ) :=
  match impl.bind (·.state) with
  | some s =>
      match (a.wireOp true).bind (·.result schemaHashOf (w.seen s)) with
      | some (v, state, x) =>
          let states := w.states.modify s fun _ => state
          if x.registered then some (v, states.share s, ⟨x, some s⟩)
          else some (v, states, ⟨x, none⟩)
      | none => none
  | none =>
      match (a.wireOp false).bind (·.result schemaHashOf (w.seen 0)) with
      | some (v, _, x) =>
          let status := if impl.any DomainImpl.onShm then a.shmStatus.getD x.status else x.status
          some (v, w.states, ⟨{ x with status := status }, none⟩)
      | none => none

end Process

section Step

variable [DecidableEq τ] (schemaHashOf : τ → UInt64) (euid : Nat) (hasPosixShm : Bool)

/-- `Domain::InProcess` and the other factories, the move operations and destructors of
`Domain` and of `Endpoint`, and the four wiring verbs. -/
def step (w : Process τ) (a : Act τ) : Option (Process τ) :=
  match a with
  | .inProcess d name =>
      let (states, s) := w.states.acquire (Shm.deriveIsolationKey euid name) {}
      { w with states := states }.openDomain d { reach := .inProcess, state := some s }
  | .posixShm d name =>
      w.openDomain d { reach := .posixShm, shmKey :=
        if hasPosixShm then Shm.deriveIsolationKey euid name else [] }
  | .iceoryx2 d => w.openDomain d { reach := .iceoryx2 }
  | .zenoh d => w.openDomain d { reach := .zenoh }
  | .moveDomain d e =>
      match w.domains.lookup d, pull e w.domains with
      | none, some (x, rest) => some { w with domains := (d, x) :: (e, none) :: rest }
      | _, _ => none
  | .assignDomain d e =>
      match pull d w.domains with
      | none => none
      | some (x, rest) =>
          if d = e then some w
          else
            match pull e rest with
            | none => none
            | some (y, rest') =>
                some { w with
                  states := deleteDomain w.states x
                  domains := (d, y) :: (e, none) :: rest' }
  | .destroyDomain d =>
      match pull d w.domains with
      | none => none
      | some (x, rest) =>
          some { w with states := deleteDomain w.states x, domains := rest }
  | .moveConstruct v u =>
      match w.handles v, w.handles u with
      | none, some p => some ((w.point v (some p)).point u (some none))
      | _, _ => none
  | .moveAssign v u =>
      match w.handles v, w.handles u with
      | some p, some q =>
          if v = u then some w
          else some (((w.delete p).point v (some q)).point u (some none))
      | _, _ => none
  | .destroy v =>
      match w.handles v with
      | some p => some ((w.delete p).point v none)
      | none => none
  | .advertise _ d _ _ _ _ | .subscribe _ d _ _ _ _ | .serve _ d _ _ _ | .client _ d _ _ _ =>
      match w.domains.lookup d with
      | none => none
      | some impl =>
          match w.wire schemaHashOf impl a with
          | some (v, states, x) =>
              if w.handles v = none then some (w.mint v states x) else none
          | none => none

/-- Programs over any domains, from the start of the process. -/
def process : Machine (Process τ) (Act τ) where
  start w := w = {}
  step := step schemaHashOf euid hasPosixShm

end Step

/-! ## Who holds a state -/

def stateOf (impl : Option DomainImpl) : Option Nat := impl.bind (·.state)

/-- Every reference to a `DomainState`, of a domain or of a wired endpoint. -/
def Process.holders (w : Process τ) : List Nat :=
  w.domains.filterMap (fun y => stateOf y.2) ++ w.heap.filterMap (fun y => y.2.state)

/-- Only an in-process domain has a state, only a shm domain a key. -/
structure DomainImpl.Proper (x : DomainImpl) : Prop where
  state : x.state.isSome = true → x.reach = .inProcess
  shmKey : x.shmKey ≠ [] → x.reach = .posixShm

structure Inv (w : Process τ) : Prop where
  counts : w.states.Counts w.holders
  blank : ∀ s, w.states.made ≤ s → (w.states.blocks s).body = {}
  proper : ∀ y ∈ w.domains, ∀ x, y.2 = some x → x.Proper

theorem pull_perm {α : Type} {d : Nat} {l rest : List (Nat × α)} {x : α}
    (h : pull d l = some (x, rest)) : l.Perm ((d, x) :: rest) := by
  obtain ⟨y, hy, hpair⟩ := Option.map_eq_some_iff.mp h
  cases hpair
  exact lookup_perm hy

theorem pull_mem {α : Type} {d : Nat} {l rest : List (Nat × α)} {x : α}
    (h : pull d l = some (x, rest)) : (d, x) ∈ l ∧ ∀ y ∈ rest, y ∈ l := by
  have hp := pull_perm h
  exact ⟨hp.mem_iff.mpr (by simp), fun y hy => hp.mem_iff.mpr (List.mem_cons_of_mem _ hy)⟩

/-- What the operations on domains do: they open one, or they move, assign or destroy
some, and what is left over is deleted. -/
inductive DomainMove (w : Process τ) : Process τ → Prop
  | acquired (d : Nat) (k : List Char) :
      DomainMove w { w with
        states := (w.states.acquire k {}).1
        domains := (d, some { reach := .inProcess, state := some (w.states.acquire k {}).2 }) ::
          w.domains }
  | opened (d : Nat) (impl : DomainImpl) : impl.state = none → impl.Proper →
      DomainMove w { w with domains := (d, some impl) :: w.domains }
  | rearranged (x : Option DomainImpl) (l : List (Nat × Option DomainImpl)) :
      (∀ y ∈ l, y.2 = none ∨ ∃ y' ∈ w.domains, y'.2 = y.2) →
      (w.domains.filterMap fun y => stateOf y.2).Perm
        ((stateOf x).toList ++ l.filterMap fun y => stateOf y.2) →
      DomainMove w { w with states := deleteDomain w.states x, domains := l }

theorem filterMap_states_cons (d : Nat) (x : Option DomainImpl)
    (l : List (Nat × Option DomainImpl)) :
    ((d, x) :: l).filterMap (fun y => stateOf y.2) =
      (stateOf x).toList ++ l.filterMap fun y => stateOf y.2 := by
  cases h : stateOf x <;> simp [h]

theorem Process.delete_handles (w : Process τ) (p : Option Nat) :
    (w.delete p).handles = w.handles := by
  cases p with
  | none => rfl
  | some i =>
      simp only [delete]
      split <;> rfl

theorem programDelete_handles (w : Program τ) (p : Option Nat) :
    (w.delete p).handles = w.handles := by
  cases p with
  | none => rfl
  | some i =>
      simp only [Program.delete]
      split <;> rfl

section Moves

variable [DecidableEq τ] {schemaHashOf : τ → UInt64} {euid : Nat} {hasPosixShm : Bool}
  {w w' : Process τ} {a : Act τ}

/-- What a step does: something to the domains; something to the handles, an endpoint
deleted before it or not, as in any program with these handles; or a wiring. -/
theorem step_cases (h : step schemaHashOf euid hasPosixShm w a = some w') :
    DomainMove w w' ∨
      (∃ q hs, w' = { w.delete q with handles := hs } ∧
        (q = none ∨ ∃ v, a.deletes = some v ∧ w.handles v = some q) ∧
        ∀ p : Program τ, p.handles = w.handles →
          ∃ op, programStep schemaHashOf p op = some { p.delete q with handles := hs }) ∨
      (∃ d impl v states x, a.domain = some d ∧ w.domains.lookup d = some impl ∧
        w.wire schemaHashOf impl a = some (v, states, x) ∧ w.handles v = none ∧
        w' = w.mint v states x) := by
  cases a with
  | inProcess d name =>
      simp only [step, Process.openDomain] at h
      split at h
      · cases h
        exact .inl (.acquired d _)
      · cases h
  | posixShm d name =>
      simp only [step, Process.openDomain] at h
      split at h
      · cases h
        exact .inl (.opened d _ rfl ⟨fun h0 => (by cases h0), fun _ => rfl⟩)
      · cases h
  | iceoryx2 d | zenoh d =>
      simp only [step, Process.openDomain] at h
      split at h
      · cases h
        exact .inl (.opened d _ rfl ⟨fun h0 => (by cases h0), fun h0 => absurd rfl h0⟩)
      · cases h
  | moveDomain d e =>
      simp only [step] at h
      split at h
      · next x rest hd he =>
          cases h
          refine .inl (.rearranged none _ (fun y hy => ?_) ?_)
          · rcases List.mem_cons.mp hy with rfl | hy
            · exact .inr ⟨(e, x), (pull_mem he).1, rfl⟩
            · rcases List.mem_cons.mp hy with rfl | hy
              · exact .inl rfl
              · exact .inr ⟨y, (pull_mem he).2 y hy, rfl⟩
          · have hp := (pull_perm he).filterMap fun y => stateOf y.2
            rw [filterMap_states_cons] at hp
            rw [filterMap_states_cons, filterMap_states_cons]
            exact hp
      · cases h
  | assignDomain d e =>
      simp only [step] at h
      split at h
      · cases h
      · next x rest hd =>
          split at h
          · cases h
            exact .inl (.rearranged none w.domains (fun y hy => .inr ⟨y, hy, rfl⟩) (.refl _))
          · split at h
            · cases h
            · next y rest' he =>
                cases h
                refine .inl (.rearranged x _ (fun z hz => ?_) ?_)
                · rcases List.mem_cons.mp hz with rfl | hz
                  · exact .inr ⟨(e, y), (pull_mem hd).2 _ (pull_mem he).1, rfl⟩
                  · rcases List.mem_cons.mp hz with rfl | hz
                    · exact .inl rfl
                    · exact .inr ⟨z, (pull_mem hd).2 _ ((pull_mem he).2 z hz), rfl⟩
                · have hp := (pull_perm hd).filterMap fun y => stateOf y.2
                  have hp' := (pull_perm he).filterMap fun y => stateOf y.2
                  rw [filterMap_states_cons] at hp hp'
                  rw [filterMap_states_cons, filterMap_states_cons]
                  exact hp.trans (hp'.append_left _)
  | destroyDomain d =>
      simp only [step] at h
      split at h
      · cases h
      · next x rest hd =>
          cases h
          refine .inl (.rearranged x rest (fun y hy => .inr ⟨y, (pull_mem hd).2 y hy, rfl⟩) ?_)
          have hp := (pull_perm hd).filterMap fun y => stateOf y.2
          rwa [filterMap_states_cons] at hp
  | moveConstruct v u =>
      simp only [step] at h
      split at h
      · next p hv hu =>
          cases h
          refine .inr (.inl ⟨none, _, rfl, .inl rfl, fun q hq => ⟨.moveConstruct v u, ?_⟩⟩)
          simp only [programStep, WireOp.result, hq, hv, hu]
          simp [Program.point, Program.delete, Process.point, hq]
      · cases h
  | moveAssign v u =>
      simp only [step] at h
      split at h
      · next p q hv hu =>
          split at h
          · next hvu =>
              cases h
              refine .inr (.inl ⟨none, _, rfl, .inl rfl, fun r hr => ⟨.moveAssign v u, ?_⟩⟩)
              simp only [programStep, WireOp.result, hr, hv, hu, if_pos hvu]
              rw [← hr]
              rfl
          · next hvu =>
              cases h
              refine .inr (.inl ⟨p, _, rfl, .inr ⟨v, if_neg hvu, hv⟩, fun r hr =>
                ⟨.moveAssign v u, ?_⟩⟩)
              simp only [programStep, WireOp.result, hr, hv, hu, if_neg hvu]
              simp only [Program.point, Process.point, programDelete_handles,
                Process.delete_handles, hr]
      · cases h
  | destroy v =>
      simp only [step] at h
      split at h
      · next p hv =>
          cases h
          refine .inr (.inl ⟨p, _, rfl, .inr ⟨v, rfl, hv⟩, fun r hr => ⟨.destroy v, ?_⟩⟩)
          simp only [programStep, WireOp.result, hr, hv]
          simp only [Program.point, programDelete_handles, Process.delete_handles, hr]
      · cases h
  | advertise v d topic t qos shm | subscribe v d topic t qos shm | serve v d topic req rsp
  | client v d topic req rsp =>
      simp only [step] at h
      split at h
      · cases h
      · next impl hd =>
          split at h
          · next v' states x hwire =>
              split at h
              · next hv =>
                  cases h
                  exact .inr (.inr ⟨d, impl, v', states, x, rfl, hd, hwire, hv, rfl⟩)
              · cases h
          · cases h

/-- A verb that finds no registry gives the same handle an endpoint that is not wired. -/
theorem wireOp_off {live : Bool} {p : Program τ} {v : Nat} {r : DomainState τ × EndpointImpl τ}
    (h : (a.wireOp live).bind (·.result schemaHashOf p) = some (v, r)) (q : Program τ) :
    ∃ y, (a.wireOp false).bind (·.result schemaHashOf q) = some (v, q.state, y) ∧
      y.registered = false ∧ y.status = .unsupportedReach := by
  cases a with
  | advertise v' d topic t qos shm =>
      cases h
      exact ⟨{ kind := .publisher t, qos := qos }, rfl, rfl, rfl⟩
  | subscribe v' d topic t qos shm =>
      cases h
      exact ⟨{ kind := .subscriber t, qos := qos }, rfl, rfl, rfl⟩
  | serve v' d topic req rsp =>
      cases h
      exact ⟨{ kind := .server req rsp }, rfl, rfl, rfl⟩
  | client v' d topic req rsp =>
      cases h
      exact ⟨{ kind := .client req rsp }, rfl, rfl, rfl⟩
  | inProcess | posixShm | iceoryx2 | zenoh | moveDomain | assignDomain | destroyDomain
  | moveConstruct | moveAssign | destroy => cases h

/-- A verb reads the registry and the next address, nothing else of a program. -/
theorem result_congr {op : WireOp τ} {p q : Program τ} (hs : p.state = q.state)
    (ha : p.allocs = q.allocs) : op.result schemaHashOf p = op.result schemaHashOf q := by
  cases op with
  | advertise | serve | client => simp only [WireOp.result, hs]
  | subscribe => simp only [WireOp.result, hs, ha]
  | moveConstruct | moveAssign | destroy => rfl

/-- What a wiring verb comes to: an endpoint outside every registry, or what the verb
makes of the domain's own, which the endpoint then holds if it is wired. -/
theorem wire_spec {impl : Option DomainImpl} {v : Nat} {x : HeldImpl τ}
    {states : Pool (List Char) (DomainState τ)}
    (h : w.wire schemaHashOf impl a = some (v, states, x)) :
    (stateOf impl = none ∧ states = w.states ∧ x.state = none ∧ x.impl.registered = false ∧
      ∃ p r, (a.wireOp false).bind (·.result schemaHashOf p) = some (v, r)) ∨
    ∃ s st, stateOf impl = some s ∧
      (a.wireOp true).bind (·.result schemaHashOf (w.seen s)) = some (v, st, x.impl) ∧
      (x.state = some s ∧ x.impl.ok = true ∧ states = (w.states.modify s fun _ => st).share s ∨
        x.state = none ∧ x.impl.ok = false ∧ x.impl.registered = false ∧
          st = (w.states.blocks s).body ∧ states = w.states.modify s fun _ => st) := by
  have hreg : ∀ {op : WireOp τ} {s v' : Nat} {r : DomainState τ × EndpointImpl τ},
      op.result schemaHashOf (w.seen s) = some (v', r) →
      r.2.registered = true ∧ r.2.ok = true ∨
        r.2.registered = false ∧ r.2.ok = false ∧ r.1 = (w.states.blocks s).body := by
    intro op s v' r hr
    rcases result_cases hr with ⟨hs, hst, hoff⟩ | ⟨n, impl', add, hadd, hoff, rfl⟩
    · exact .inr ⟨hoff, by simp [EndpointImpl.ok, hst], hs⟩
    · rcases wire_cases (s := (w.seen s).state) (n := n) hadd with
        ⟨e, e', -, -, -, -, hw⟩ | ⟨st, hne, hw⟩
      · rw [hw]
        exact .inl ⟨rfl, rfl⟩
      · rw [hw]
        exact .inr ⟨hoff, by rcases hne with rfl | rfl <;> rfl, rfl⟩
  unfold Process.wire at h
  split at h
  · next s hs =>
      split at h
      · next v' st y hr =>
          obtain ⟨op, -, hop⟩ := Option.bind_eq_some_iff.mp hr
          split at h
          · next hy =>
              cases h
              refine .inr ⟨s, st, hs, hr, .inl ⟨rfl, ?_, rfl⟩⟩
              rcases hreg hop with ⟨-, hok⟩ | ⟨hoff, -⟩
              · exact hok
              · exact absurd hy (by rw [hoff]; decide)
          · next hy =>
              cases h
              rcases hreg hop with ⟨hon, -⟩ | ⟨hoff, hok, hbody⟩
              · exact absurd hon hy
              · exact .inr ⟨s, st, hs, hr, .inr ⟨rfl, hok, hoff, hbody, rfl⟩⟩
      · cases h
  · next hs =>
      split at h
      · next v' st y hr =>
          cases h
          obtain ⟨z, hz, hoff, -⟩ := wireOp_off hr (w.seen 0)
          rw [hr] at hz
          cases hz
          exact .inl ⟨hs, rfl, rfl, hoff, _, _, hr⟩
      · cases h

/-! ## The counts -/

omit [DecidableEq τ] in
theorem Process.holders_mint (v : Nat) (states : Pool (List Char) (DomainState τ))
    (x : HeldImpl τ) : (w.mint v states x).holders.Perm (x.state.toList ++ w.holders) := by
  cases h : x.state with
  | none => simp [holders, mint, h]
  | some s =>
      have hheap : ((w.allocs, x) :: w.heap).filterMap (fun y => y.2.state) =
          s :: w.heap.filterMap fun y => y.2.state := List.filterMap_cons_some h
      simp only [holders, mint, hheap, Option.toList_some]
      exact List.perm_middle

omit [DecidableEq τ] in
/-- Deleting an endpoint keeps the counts: it gives back what it held. -/
theorem Inv.delete (h : Inv w) (p : Option Nat) : Inv (w.delete p) := by
  cases p with
  | none => exact h
  | some i =>
      simp only [Process.delete]
      split
      · exact h
      · next x hx =>
          have hheap := (lookup_perm hx).filterMap fun y => y.2.state
          cases hstate : x.state with
          | none =>
              simp only [deleteEndpoint, hstate]
              refine ⟨h.counts.perm ?_, h.blank, h.proper⟩
              rw [List.filterMap_cons_none (by exact hstate)] at hheap
              exact hheap.append_left _
          | some s =>
              simp only [deleteEndpoint, hstate]
              rw [List.filterMap_cons_some (by exact hstate)] at hheap
              have hperm : w.holders.Perm (s :: (w.domains.filterMap (fun y => stateOf y.2) ++
                  (w.heap.eraseP (·.1 == i)).filterMap fun y => y.2.state)) :=
                (hheap.append_left _).trans List.perm_middle
              refine ⟨((h.counts.perm hperm).modify _).release, fun t ht => ?_, h.proper⟩
              have hne : t ≠ s := by
                have hs := (h.counts.perm hperm).made s (by simp)
                intro he
                exact Nat.lt_irrefl _ (Nat.lt_of_lt_of_le (he ▸ hs) ht)
              rw [Pool.release_body, Pool.modify_body_ne _ _ hne]
              exact h.blank t ht

theorem inv_step (h : step schemaHashOf euid hasPosixShm w a = some w') (hi : Inv w) : Inv w' := by
  rcases step_cases h with hm | ⟨p, hs, rfl, -, -⟩ | ⟨d, impl, v, states, x, -, hd, hwire, -, rfl⟩
  · cases hm with
    | acquired d k =>
        refine ⟨hi.counts.acquire, fun s hs => ?_, fun y hy x hx => ?_⟩
        · have hle := Nat.le_trans (w.states.made_le_acquire k {}) hs
          rw [Pool.acquire_body _ fun _ => hi.blank s hle]
          exact hi.blank s hle
        · rcases List.mem_cons.mp hy with rfl | hy
          · cases hx
            exact ⟨fun _ => rfl, fun h0 => absurd rfl h0⟩
          · exact hi.proper y hy x hx
    | opened d impl hnone hproper =>
        have hoff : stateOf (some impl) = none := hnone
        refine ⟨hi.counts.perm ?_, hi.blank, fun y hy x hx => ?_⟩
        · simp only [Process.holders, filterMap_states_cons, hoff, Option.toList_none,
            List.nil_append]
          exact .refl _
        · rcases List.mem_cons.mp hy with rfl | hy
          · cases hx
            exact hproper
          · exact hi.proper y hy x hx
    | rearranged x l hl hperm =>
        have hproper : ∀ y ∈ l, ∀ z, y.2 = some z → z.Proper := by
          intro y hy z hz
          rcases hl y hy with h0 | ⟨y', hy', heq⟩
          · rw [h0] at hz
            cases hz
          · exact hi.proper y' hy' z (heq.trans hz)
        have hholders : w.holders.Perm ((stateOf x).toList ++
            { w with states := deleteDomain w.states x, domains := l }.holders) := by
          rw [Process.holders, Process.holders, ← List.append_assoc]
          exact hperm.append_right _
        cases hx : stateOf x with
        | none =>
            rw [hx] at hholders
            have hsame : deleteDomain w.states x = w.states := by
              rw [deleteDomain, show x.bind (·.state) = none from hx]
            rw [hsame] at hholders ⊢
            exact ⟨hi.counts.perm hholders, hi.blank, hproper⟩
        | some s =>
            rw [hx] at hholders
            have hsame : deleteDomain w.states x = w.states.release s := by
              rw [deleteDomain, show x.bind (·.state) = some s from hx]
            rw [hsame] at hholders ⊢
            refine ⟨(hi.counts.perm hholders).release, fun t ht => ?_, hproper⟩
            rw [Pool.release_body]
            exact hi.blank t ht
  · exact ⟨(hi.delete p).counts, (hi.delete p).blank, (hi.delete p).proper⟩
  · have hperm := w.holders_mint v states x
    rcases wire_spec hwire with ⟨-, rfl, hx, -⟩ | ⟨s, st, himpl, -, hcase⟩
    · rw [hx] at hperm
      exact ⟨hi.counts.perm hperm.symm, hi.blank, hi.proper⟩
    · -- the domain holds its state, so the state is there and may be held once more
      have hmem : s ∈ w.holders := by
        obtain ⟨y, hy⟩ : ∃ y, y ∈ w.domains ∧ stateOf y.2 = some s :=
          ⟨(d, impl), (lookup_perm hd).mem_iff.mpr (by simp), himpl⟩
        exact List.mem_append_left _ (List.mem_filterMap.mpr ⟨y, hy⟩)
      have hblank : ∀ t, w.states.made ≤ t →
          ((w.states.modify s fun _ => st).blocks t).body = {} := by
        intro t ht
        rw [Pool.modify_body_ne]
        · exact hi.blank t ht
        · intro he
          exact Nat.lt_irrefl _ (Nat.lt_of_lt_of_le (he ▸ hi.counts.made s hmem) ht)
      rcases hcase with ⟨hx, -, rfl⟩ | ⟨hx, -, -, -, rfl⟩
      · rw [hx] at hperm
        refine ⟨((hi.counts.modify _).share hmem).perm hperm.symm, fun t ht => ?_, hi.proper⟩
        exact (Pool.share_body _ s t).trans (hblank t ht)
      · rw [hx] at hperm
        exact ⟨(hi.counts.modify (s := s) fun _ => st).perm hperm.symm, hblank, hi.proper⟩

theorem inv_reached (h : (process schemaHashOf euid hasPosixShm).Reached anyStep w) : Inv w := by
  refine h.invariant (P := Inv) ?_ ?_
  · rintro w rfl
    refine ⟨⟨fun s => rfl, fun s hs => ?_, fun s hs => ?_, fun k s hs => ?_⟩, fun _ _ => rfl,
      fun y hy => ?_⟩
    · cases hs
    · cases hs
    · cases hs
    · cases hy
  · intro w a w' _ hi _ hs
    exact inv_step hs hi

end Moves

/-! ## One domain by itself -/

/-- An endpoint as a program over the state `s` has it: an endpoint of that state, or one
that is wired nowhere. -/
structure Like (s : Nat) (x : HeldImpl τ) (y : EndpointImpl τ) : Prop where
  here : x.state = some s → y = x.impl ∧ y.ok = true
  elsewhere : x.state ≠ some s → y.registered = false ∧ y.ok = false

/-- The process as a program over the state `s`. -/
structure Shows (s : Nat) (w : Process τ) (p : Program τ) : Prop where
  state : p.state = (w.states.blocks s).body
  allocs : p.allocs = w.allocs
  handles : p.handles = w.handles
  heap : List.Forall₂ (fun x y => x.1 = y.1 ∧ Like s x.2 y.2) w.heap p.heap

section Heap

variable {s i : Nat} {l : List (Nat × HeldImpl τ)} {l' : List (Nat × EndpointImpl τ)}

theorem lookup_like (h : List.Forall₂ (fun x y => x.1 = y.1 ∧ Like s x.2 y.2) l l') :
    (l.lookup i = none ∧ l'.lookup i = none) ∨
      ∃ x y, l.lookup i = some x ∧ l'.lookup i = some y ∧ Like s x y := by
  induction h with
  | nil => exact .inl ⟨rfl, rfl⟩
  | @cons x y l l' hxy _ ih =>
      obtain ⟨j, x⟩ := x
      obtain ⟨j', y⟩ := y
      obtain ⟨rfl, hlike⟩ : j = j' ∧ Like s x y := hxy
      simp only [List.lookup_cons]
      cases i == j with
      | true => exact .inr ⟨x, y, rfl, rfl, hlike⟩
      | false => exact ih

theorem eraseP_like (h : List.Forall₂ (fun x y => x.1 = y.1 ∧ Like s x.2 y.2) l l') :
    List.Forall₂ (fun x y => x.1 = y.1 ∧ Like s x.2 y.2) (l.eraseP (·.1 == i))
      (l'.eraseP (·.1 == i)) := by
  induction h with
  | nil => exact .nil
  | @cons x y l l' hxy hl ih =>
      by_cases hi : x.1 == i
      · rw [List.eraseP_cons_of_pos (by exact hi),
          List.eraseP_cons_of_pos (by rw [← hxy.1]; exact hi)]
        exact hl
      · rw [List.eraseP_cons_of_neg (by exact hi),
          List.eraseP_cons_of_neg (by rw [← hxy.1]; exact hi)]
        exact .cons hxy ih

theorem wired_like (h : List.Forall₂ (fun x y => x.1 = y.1 ∧ Like s x.2 y.2) l l') :
    l'.filter (·.2.ok) = (l.filter (·.2.state == some s)).map fun x => (x.1, x.2.impl) := by
  induction h with
  | nil => rfl
  | @cons x y l l' hxy _ ih =>
      obtain ⟨haddr, hlike⟩ := hxy
      by_cases hs : x.2.state = some s
      · obtain ⟨himpl, hok⟩ := hlike.here hs
        simp only [List.filter_cons, hok, hs, beq_self_eq_true, if_true, List.map_cons, ih, haddr,
          ← himpl]
      · have hne : (x.2.state == some s) = false := by simpa using hs
        simp only [List.filter_cons, (hlike.elsewhere hs).2, hne, ih]
        rfl

end Heap

theorem Shows.delete {s : Nat} {w : Process τ} {p : Program τ} (h : Shows s w p)
    (q : Option Nat) : Shows s (w.delete q) (p.delete q) := by
  cases q with
  | none => exact h
  | some i =>
      rcases lookup_like (i := i) h.heap with ⟨hx, hy⟩ | ⟨x, y, hx, hy, hlike⟩
      · simp only [Process.delete, Program.delete, hx, hy]
        exact h
      · simp only [Process.delete, Program.delete, hx, hy]
        refine ⟨?_, h.allocs, h.handles, eraseP_like h.heap⟩
        by_cases hs : x.state = some s
        · obtain ⟨himpl, -⟩ := hlike.here hs
          simp only [deleteEndpoint, hs, Pool.release_body, Pool.modify_body_self, himpl, h.state]
        · have hsame : p.state.unregister i y = p.state := by
            rw [DomainState.unregister, (hlike.elsewhere hs).1]
          rw [hsame, h.state]
          cases hx' : x.state with
          | none => simp only [deleteEndpoint, hx']
          | some t =>
              have hne : s ≠ t := by
                rintro rfl
                exact hs hx'
              simp only [deleteEndpoint, hx', Pool.release_body, Pool.modify_body_ne _ _ hne]

section Simulation

variable [DecidableEq τ] {schemaHashOf : τ → UInt64} {euid : Nat} {hasPosixShm : Bool}
  {w w' : Process τ} {a : Act τ} {s : Nat}

omit [DecidableEq τ] in
/-- Opening, moving and destroying domains leaves every registry alone. -/
theorem DomainMove.body (hm : DomainMove w w') (hi : Inv w) (t : Nat) :
    (w'.states.blocks t).body = (w.states.blocks t).body := by
  cases hm with
  | acquired d k => exact Pool.acquire_body _ fun ht => hi.blank t (Nat.le_of_eq ht.symm)
  | opened d impl _ _ => rfl
  | rearranged x l _ _ =>
      show ((deleteDomain w.states x).blocks t).body = _
      rw [deleteDomain]
      split
      · exact Pool.release_body _ _ t
      · rfl

omit [DecidableEq τ] in
theorem DomainMove.endpoints (hm : DomainMove w w') :
    w'.heap = w.heap ∧ w'.allocs = w.allocs ∧ w'.handles = w.handles := by
  cases hm with
  | acquired | opened | rearranged => exact ⟨rfl, rfl, rfl⟩

/-- Whatever a process does is, for each of its states, nothing or a step of a program
that has the state for itself. -/
theorem shows_step {p : Program τ} (hi : Inv w)
    (h : step schemaHashOf euid hasPosixShm w a = some w') (hp : Shows s w p) :
    Shows s w' p ∨ ∃ p', (∃ op, programStep schemaHashOf p op = some p') ∧ Shows s w' p' := by
  rcases step_cases h with hm | ⟨q, hs, rfl, -, hprog⟩ |
    ⟨d, impl, v, states, x, -, -, hwire, hv, rfl⟩
  · obtain ⟨hheap, hallocs, hhandles⟩ := hm.endpoints
    refine .inl ⟨?_, ?_, ?_, ?_⟩
    · rw [hm.body hi s]
      exact hp.state
    · rw [hallocs]
      exact hp.allocs
    · rw [hhandles]
      exact hp.handles
    · rw [hheap]
      exact hp.heap
  · obtain ⟨op, hop⟩ := hprog p hp.handles
    have hd := hp.delete q
    exact .inr ⟨_, ⟨op, hop⟩, hd.state, hd.allocs, rfl, hd.heap⟩
  · -- a wiring through the state itself, or one that is no business of it
    have hmint : ∀ {live : Bool} {r : DomainState τ × EndpointImpl τ},
        (a.wireOp live).bind (·.result schemaHashOf p) = some (v, r) →
        r.1 = (states.blocks s).body → Like s x r.2 →
        ∃ p', (∃ op, programStep schemaHashOf p op = some p') ∧ Shows s (w.mint v states x) p' := by
      intro live r hr hstate hlike
      obtain ⟨op, -, hop⟩ := Option.bind_eq_some_iff.mp hr
      refine ⟨p.mint v r, ⟨op, ?_⟩, hstate, ?_, ?_, ?_⟩
      · simp only [programStep, hop, hp.handles, if_pos hv]
      · show p.allocs + 1 = w.allocs + 1
        rw [hp.allocs]
      · show Function.update p.handles v _ = Function.update w.handles v _
        rw [hp.handles, hp.allocs]
      · exact .cons ⟨hp.allocs.symm, hlike⟩ hp.heap
    have hoff : ∀ {live : Bool} {q : Program τ} {r : DomainState τ × EndpointImpl τ},
        (a.wireOp live).bind (·.result schemaHashOf q) = some (v, r) →
        (states.blocks s).body = (w.states.blocks s).body → x.state ≠ some s →
        ∃ p', (∃ op, programStep schemaHashOf p op = some p') ∧ Shows s (w.mint v states x) p' := by
      intro live q r hr hstate hx
      obtain ⟨y, hy, hreg, hst⟩ := wireOp_off hr p
      refine hmint hy (hp.state.trans hstate.symm) ⟨fun h0 => absurd h0 hx, fun _ => ⟨hreg, ?_⟩⟩
      rw [EndpointImpl.ok, hst]
      rfl
    rcases wire_spec hwire with ⟨-, rfl, hx, -, q, r, hr⟩ | ⟨t, st, -, hr, hcase⟩
    · exact .inr (hoff hr rfl (by rw [hx]; simp))
    · by_cases hts : t = s
      · subst hts
        have hseen : ∀ op : WireOp τ,
            op.result schemaHashOf (w.seen t) = op.result schemaHashOf p :=
          fun op => result_congr hp.state.symm hp.allocs.symm
        simp only [hseen] at hr
        rcases hcase with ⟨hx, hok, rfl⟩ | ⟨hx, hok, hreg, -, rfl⟩
        · refine .inr (hmint hr ?_ ⟨fun _ => ⟨rfl, hok⟩, fun h0 => absurd hx h0⟩)
          rw [Pool.share_body, Pool.modify_body_self]
        · refine .inr (hmint hr ?_ ⟨fun h0 => ?_, fun _ => ⟨hreg, hok⟩⟩)
          · rw [Pool.modify_body_self]
          · rw [hx] at h0
            cases h0
      · rcases hcase with ⟨hx, -, rfl⟩ | ⟨hx, -, -, -, rfl⟩
        · refine .inr (hoff hr ?_ ?_)
          · rw [Pool.share_body, Pool.modify_body_ne _ _ (Ne.symm hts)]
          · rw [hx]
            exact fun h0 => hts (Option.some.inj h0)
        · refine .inr (hoff hr ?_ ?_)
          · rw [Pool.modify_body_ne _ _ (Ne.symm hts)]
          · rw [hx]
            simp

theorem shows_reached (s : Nat) (h : (process schemaHashOf euid hasPosixShm).Reached anyStep w) :
    ∃ p, (program schemaHashOf).Reached anyStep p ∧ Shows s w p := by
  refine h.simulate (Shows s) ((program schemaHashOf).Reached anyStep)
    (fun p p' => ∃ op, programStep schemaHashOf p op = some p') ?_ ?_ ?_
  · rintro p p' hp ⟨op, hop⟩
    exact hp.next trivial hop
  · rintro w rfl
    exact ⟨{}, .start rfl, rfl, rfl, rfl, .nil⟩
  · intro w a w' p hw _ hstep _ hp
    exact shows_step (inv_reached hw) hstep hp

/-! ## What the isolation key promises -/

/-- The operation works on the registry of the state: it is a verb on a domain that holds
the state, or it deletes an endpoint that does. -/
def Touches (w : Process τ) (a : Act τ) (s : Nat) : Prop :=
  (∃ d impl, a.domain = some d ∧ w.domains.lookup d = some impl ∧ stateOf impl = some s) ∨
    ∃ v i x, a.deletes = some v ∧ w.handles v = some (some i) ∧ w.heap.lookup i = some x ∧
      x.state = some s

/-- The endpoints wired through a state. -/
def Process.wiredTo (w : Process τ) (s : Nat) : List (Nat × EndpointImpl τ) :=
  (w.heap.filter (·.2.state == some s)).map fun y => (y.1, y.2.impl)

theorem touches_of_step (hi : Inv w) (h : step schemaHashOf euid hasPosixShm w a = some w')
    (hs : (w'.states.blocks s).body ≠ (w.states.blocks s).body) : Touches w a s := by
  rcases step_cases h with hm | ⟨q, hs', rfl, hq, -⟩ |
    ⟨d, impl, v, states, x, hd, hl, hwire, -, rfl⟩
  · exact absurd (hm.body hi s) hs
  · rcases hq with rfl | ⟨v, hv, hhv⟩
    · exact absurd rfl hs
    · cases q with
      | none => exact absurd rfl hs
      | some i =>
          simp only [Process.delete] at hs
          split at hs
          · exact absurd rfl hs
          · next x hx =>
              by_cases hxs : x.state = some s
              · exact .inr ⟨v, i, x, hv, hhv, hx, hxs⟩
              · refine absurd ?_ hs
                cases hx' : x.state with
                | none => simp only [deleteEndpoint, hx']
                | some t =>
                    have hne : s ≠ t := by
                      rintro rfl
                      exact hxs hx'
                    simp only [deleteEndpoint, hx', Pool.release_body, Pool.modify_body_ne _ _ hne]
  · rcases wire_spec hwire with ⟨-, rfl, -⟩ | ⟨t, st, himpl, -, hcase⟩
    · exact absurd rfl hs
    · by_cases hts : t = s
      · exact .inl ⟨d, impl, hd, hl, hts ▸ himpl⟩
      · refine absurd ?_ hs
        rcases hcase with ⟨-, -, rfl⟩ | ⟨-, -, -, -, rfl⟩
        · exact (Pool.share_body _ t s).trans (Pool.modify_body_ne _ _ (Ne.symm hts))
        · exact Pool.modify_body_ne w.states (fun _ => st) (Ne.symm hts)

/-- A state keeps its key. -/
theorem step_key (h : step schemaHashOf euid hasPosixShm w a = some w')
    (hs : s < w.states.made) : (w'.states.blocks s).key = (w.states.blocks s).key := by
  rcases step_cases h with hm | ⟨q, hs', rfl, -, -⟩ | ⟨d, impl, v, states, x, -, -, hwire, -, rfl⟩
  · cases hm with
    | acquired d k => exact Pool.acquire_key _ (Nat.ne_of_lt hs)
    | opened d impl _ _ => rfl
    | rearranged x l _ _ =>
        show ((deleteDomain w.states x).blocks s).key = _
        rw [deleteDomain]
        split
        · exact Pool.release_key _ _ s
        · rfl
  · cases q with
    | none => rfl
    | some i =>
        simp only [Process.delete]
        split
        · rfl
        · next x hx =>
            show ((deleteEndpoint w.states i x).blocks s).key = _
            rw [deleteEndpoint]
            split
            · rw [Pool.release_key, Pool.modify_key]
            · rfl
  · show (states.blocks s).key = _
    rcases wire_spec hwire with ⟨-, rfl, -⟩ | ⟨t, st, -, -, hcase⟩
    · rfl
    · rcases hcase with ⟨-, -, rfl⟩ | ⟨-, -, -, -, rfl⟩
      · rw [Pool.share_key, Pool.modify_key]
      · rw [Pool.modify_key]

/-- The verbs of RPC. -/
def Act.rpc : Act τ → Bool
  | .serve _ _ _ _ _ | .client _ _ _ _ _ => true
  | _ => false

/-- What a process may rely on, at any point. -/
structure Isolated (schemaHashOf : τ → UInt64) (euid : Nat) (hasPosixShm : Bool) (w : Process τ) :
    Prop where
  /-- A state is there exactly as long as somebody holds it. -/
  counted : ∀ s, (w.states.blocks s).refs = w.holders.count s
  /-- Those of one key hold one state. -/
  oneState : ∀ s ∈ w.holders, ∀ t ∈ w.holders,
    (w.states.blocks s).key = (w.states.blocks t).key → s = t
  keyed : ∀ a w', step schemaHashOf euid hasPosixShm w a = some w' → ∀ s ∈ w.holders,
    (w'.states.blocks s).key = (w.states.blocks s).key
  /-- A domain opened while its key is held joins what is there. -/
  joins : ∀ d name w' s, step schemaHashOf euid hasPosixShm w (.inProcess d name) = some w' →
    s ∈ w.holders → (w.states.blocks s).key = Shm.deriveIsolationKey euid name →
    w'.domains.lookup d = some (some { reach := .inProcess, state := some s }) ∧
      (w'.states.blocks s).body = (w.states.blocks s).body
  /-- A domain opened under any other key starts from an empty registry. -/
  starts : ∀ d name w', step schemaHashOf euid hasPosixShm w (.inProcess d name) = some w' →
    (∀ s ∈ w.holders, (w.states.blocks s).key ≠ Shm.deriveIsolationKey euid name) →
    ∃ s, s ∉ w.holders ∧
      w'.domains.lookup d = some (some { reach := .inProcess, state := some s }) ∧
      (w'.states.blocks s).key = Shm.deriveIsolationKey euid name ∧
      (w'.states.blocks s).body = {}
  /-- Nothing done through one state is seen in another. -/
  apart : ∀ a w', step schemaHashOf euid hasPosixShm w a = some w' → ∀ s,
    (w'.states.blocks s).body ≠ (w.states.blocks s).body → Touches w a s
  /-- Each state is that of a program with one domain. -/
  alone : ∀ s, ∃ p, (program schemaHashOf).Reached anyStep p ∧
    p.state = (w.states.blocks s).body ∧ p.wired = w.wiredTo s
  /-- `Supports` tells beforehand which domains serve RPC. -/
  honest : ∀ a d impl v states x, a.domain = some d → w.domains.lookup d = some impl →
    w.wire schemaHashOf impl a = some (v, states, x) → a.rpc = true →
    (x.impl.status = .unsupportedReach ↔ supports impl .requestResponse = false)

theorem acquire_step {d : Nat} {name : List Char}
    (h : step schemaHashOf euid hasPosixShm w (.inProcess d name) = some w') :
    w'.states = (w.states.acquire (Shm.deriveIsolationKey euid name) {}).1 ∧
      w'.domains.lookup d = some (some (DomainImpl.mk .inProcess
        (some (w.states.acquire (Shm.deriveIsolationKey euid name) {}).2) [])) := by
  simp only [step, Process.openDomain] at h
  split at h
  · cases h
    exact ⟨rfl, List.lookup_cons_self⟩
  · cases h

theorem supports_rpc_iff {impl : Option DomainImpl} (h : ∀ y, impl = some y → y.Proper) :
    supports impl .requestResponse = false ↔ stateOf impl = none := by
  cases impl with
  | none => exact ⟨fun _ => rfl, fun _ => rfl⟩
  | some y =>
      obtain ⟨hstate, hkey⟩ := h y rfl
      obtain ⟨reach, state, key⟩ := y
      cases state with
      | some s =>
          cases hstate rfl
          simp [supports, DomainImpl.available, stateOf]
      | none =>
          cases key with
          | nil => simp [supports, DomainImpl.available, stateOf]
          | cons c cs =>
              cases hkey (List.cons_ne_nil c cs)
              simp [supports, stateOf]

/-- A server or client is `kUnsupportedReach` where there is no registry, and only there. -/
theorem rpc_unsupported_iff {v : Nat} {impl : Option DomainImpl} {x : HeldImpl τ}
    {states : Pool (List Char) (DomainState τ)}
    (hwire : w.wire schemaHashOf impl a = some (v, states, x)) (ha : a.rpc = true) :
    x.impl.status = .unsupportedReach ↔ stateOf impl = none := by
  have hon : ∀ {s : Nat} {op : WireOp τ} {v' : Nat} {r : DomainState τ × EndpointImpl τ},
      a.wireOp true = some op → op.result schemaHashOf (w.seen s) = some (v', r) →
      r.2.status ≠ .unsupportedReach := by
    intro s op v' r hop hr
    have hcase : ∀ (n : String) (y : EndpointImpl τ)
        {add : TopicBase τ → AdvertiseStatus × TopicBase τ}, Adds y.kind y.qos add →
        ((w.seen s).state.wire schemaHashOf n y add).2.status ≠ .unsupportedReach := by
      intro n y add hadd
      rcases wire_cases (s := (w.seen s).state) (n := n) hadd with
        ⟨e, e', -, -, -, -, hw⟩ | ⟨st, hst, hw⟩
      · rw [hw]
        simp
      · rw [hw]
        rcases hst with rfl | rfl <;> simp
    cases a with
    | serve v'' d topic req rsp =>
        cases hop
        cases hr
        exact hcase topic { kind := .server req rsp } (addServer_adds req rsp {})
    | client v'' d topic req rsp =>
        cases hop
        cases hr
        exact hcase topic { kind := .client req rsp } (addClient_adds req rsp {})
    | inProcess | posixShm | iceoryx2 | zenoh | moveDomain | assignDomain | destroyDomain
    | advertise | subscribe | moveConstruct | moveAssign | destroy => cases ha
  have hshm : a.shmStatus = none := by
    cases a with
    | serve | client => rfl
    | inProcess | posixShm | iceoryx2 | zenoh | moveDomain | assignDomain | destroyDomain
    | advertise | subscribe | moveConstruct | moveAssign | destroy => cases ha
  unfold Process.wire at hwire
  split at hwire
  · next s hs =>
      have hs' : stateOf impl = some s := hs
      rw [hs']
      split at hwire
      · next v' st y hr =>
          obtain ⟨op, hop, hres⟩ := Option.bind_eq_some_iff.mp hr
          have hne : y.status ≠ .unsupportedReach := hon hop hres
          split at hwire <;> cases hwire <;> simp [hne]
      · cases hwire
  · next hs =>
      have hs' : stateOf impl = none := hs
      split at hwire
      · next v' st y hr =>
          cases hwire
          obtain ⟨z, hz, -, hst⟩ := wireOp_off hr (w.seen 0)
          rw [hr] at hz
          cases hz
          simp [hshm, hst, hs']
      · cases hwire

/-- Any number of domains and endpoints, opened, wired, moved and destroyed in any order. -/
theorem domains_isolated (h : (process schemaHashOf euid hasPosixShm).Reached anyStep w) :
    Isolated schemaHashOf euid hasPosixShm w := by
  have hi := inv_reached h
  refine ⟨hi.counts.refs, fun s hs t ht hk => hi.counts.eq_of_key hs ht hk,
    fun a w' hstep s hs => step_key hstep (hi.counts.made s hs), fun d name w' s hstep hs hk => ?_,
    fun d name w' hstep hfree => ?_, fun a w' hstep s hs => touches_of_step hi hstep hs,
    fun s => ?_, fun a d impl v states x _ hd hwire hrpc => ?_⟩
  · obtain ⟨hstates, hlookup⟩ := acquire_step hstep
    rw [hi.counts.acquire_held hs hk] at hstates hlookup
    rw [hstates]
    exact ⟨hlookup, Pool.share_body _ _ _⟩
  · obtain ⟨hstates, hlookup⟩ := acquire_step hstep
    obtain ⟨haddr, hblock⟩ := hi.counts.acquire_free {} hfree
    rw [haddr] at hlookup
    refine ⟨w.states.made, fun hm => Nat.lt_irrefl _ (hi.counts.made _ hm), hlookup, ?_, ?_⟩
    · rw [hstates, hblock]
    · rw [hstates, hblock]
  · obtain ⟨p, hp, hshows⟩ := shows_reached s h
    exact ⟨p, hp, hshows.state, wired_like hshows.heap⟩
  · rw [rpc_unsupported_iff hwire hrpc, supports_rpc_iff]
    exact fun y hy => hi.proper (d, impl) ((lookup_perm hd).mem_iff.mpr (by simp)) y hy

/-- Two domains of one key and one of another; both of the first are destroyed, their
publisher is not, and a third domain of that key finds it. -/
theorem domains_isolated_outlived : ∃ w : Process Bool,
    (process (fun _ => 7) 1000 true).Reached anyStep w ∧
      (w.holders, (w.states.blocks 0).body.endpointCount, (w.states.blocks 1).body.endpointCount,
        w.heap.map (·.2.impl.status)) =
        ([0, 1, 1, 0], 1, 1, [.ownershipRefused, .unsupportedReach, .ok, .ok]) ∧
      Isolated (fun _ => 7) 1000 true w := by
  have hrun : ((process (fun _ => 7) 1000 true).exec
      [.inProcess 0 "Nav".toList, .inProcess 1 "nav".toList, .inProcess 2 "arm".toList,
        .posixShm 3 "nav".toList, .advertise 0 1 "a" true {} .ok, .advertise 1 2 "a" true {} .ok,
        .serve 2 3 "b" true false, .assignDomain 0 3, .destroyDomain 1, .destroyDomain 3,
        .inProcess 4 "NAV".toList, .advertise 3 4 "a" true {} .ok, .moveConstruct 4 0] {}).map
        (fun w => (w.holders, (w.states.blocks 0).body.endpointCount,
          (w.states.blocks 1).body.endpointCount, w.heap.map (·.2.impl.status))) =
      some ([0, 1, 1, 0], 1, 1, [.ownershipRefused, .unsupportedReach, .ok, .ok]) := by
    decide +kernel
  obtain ⟨w, hw, hf⟩ := Option.map_eq_some_iff.mp hrun
  have hreach : (process (fun _ => 7) 1000 true).Reached anyStep w :=
    Machine.reached_of_exec (.start rfl) hw
  exact ⟨w, hreach, hf, domains_isolated hreach⟩

end Simulation

end Xmmsg.Domains
