import Xmmsg.Record

/-!
# The calls a program makes on one topic

The public verbs of `Domain`, `Publisher`, `Subscriber` and `introspect`, as data:
what is called, on which handle, with which outside readings (the clock and the
calling thread's telemetry context). Both reaches implement them, `InProc/Calls.lean`
and `Shm/Calls.lean`, each call run to its return before the next begins.

A handle is named by a number and wired once; what it declares is fixed beforehand.
A call on a handle that does not exist, not yet wired or already destroyed, is no
program.
-/

namespace Xmmsg

/-- The introspection reads of a subscriber. -/
inductive Counter where
  | take
  | drop
  | overwrite
  | deadlineMiss
  deriving DecidableEq, Repr

/-- What the upstream samples of a `PublishDerived` say: origin stamp and hop
count. -/
abbrev Upstream := List (Int × Nat)

inductive Op (T : Type) where
  | advertise (p : Nat)
  | publish (p : Nat) (value : T) (context : Nat) (now : Int)
  | publishDerived (p : Nat) (value : T) (upstream : Upstream) (context : Nat) (now : Int)
  | publishCount (p : Nat)
  | publisherMatched (p : Nat)
  | destroyPublisher (p : Nat)
  | subscribe (k : Nat)
  | takeLatest (k : Nat) (now : Int)
  | tryTake (k : Nat) (now : Int)
  | count (k : Nat) (c : Counter)
  | subscriberMatched (k : Nat)
  | destroySubscriber (k : Nat)
  deriving DecidableEq, Repr

inductive Answer (T : Type) [Inhabited T] where
  | advertised (st : AdvertiseStatus)
  | subscribed (st : SubscribeStatus)
  | published (st : PublishStatus)
  | sample (s : Sample T)
  | number (n : Nat)
  | done
  deriving DecidableEq, Repr

/-- The lineage `PublishDerived` hands on: the oldest origin, and one hop more than
the longest chain, which saturates. -/
def derivedInfo : Upstream → Option DerivedInfo
  | [] => none
  | u :: us =>
      let origin := us.foldl (fun o v => if v.1 < o then v.1 else o) u.1
      let hops := us.foldl (fun m v => if v.2 > m then v.2 else m) u.2
      some { originNs := origin, hops := if hops ≥ 65535 then 65535 else hops + 1 }

/-- The sample a take hands back. -/
def sampleOf {T : Type} [Inhabited T] : Option (MailRecord T × Bool) → Sample T
  | some (r, stale) => r.sample stale
  | none => {}

/-- What a publish hands on. -/
def Op.message {T : Type} : Op T → Option (Message T)
  | .publish _ value context now => some { value := value, context := context, now := now }
  | .publishDerived _ value upstream context now =>
      some { value := value, derived := derivedInfo upstream, context := context, now := now }
  | _ => none

/-- The clock a call reads; a call that reads none may be given any. -/
def Op.clock {T : Type} : Op T → Int
  | .publish _ _ _ now | .publishDerived _ _ _ _ now | .takeLatest _ now | .tryTake _ now => now
  | _ => 0

/-- The subscribers wired after a call, from those wired before. -/
def Op.note {T : Type} (live : List Nat) : Op T → List Nat
  | .subscribe k => k :: live
  | .destroySubscriber k => live.erase k
  | _ => live

/-- The publisher a call is made on. -/
def Op.publisher {T : Type} : Op T → Option Nat
  | .advertise p | .publish p _ _ _ | .publishDerived p _ _ _ _ | .publishCount p
  | .publisherMatched p | .destroyPublisher p => some p
  | _ => none

/-- The subscriber a call is made on. -/
def Op.subscriber {T : Type} : Op T → Option Nat
  | .subscribe k | .takeLatest k _ | .tryTake k _ | .count k _ | .subscriberMatched k
  | .destroySubscriber k => some k
  | _ => none

end Xmmsg
