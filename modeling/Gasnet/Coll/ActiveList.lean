import Mathlib.Data.List.Nodup
import Gasnet.Foundation.BackLinks
import Gasnet.Foundation.Run

/-! The active list of the collectives: submissions by any thread, and the traversals of the one that
polls. -/
namespace Gasnet.ActiveList

/-- The flags that a poll function returns. -/
structure Result where
  complete : Bool
  inactive : Bool
  deriving DecidableEq

/-- How far a thread is with a submission: with a record from `gasnete_coll_op_create`, with the active
lock, and with the record at the end of the list. -/
inductive Sub (A : Type*)
  | idle
  | created (op : A)
  | locked (op : A)
  | linked (op : A)

/-- Where the thread with the poll lock is in `gasneti_coll_progressfn`. -/
inductive Pc (A : Type*)
  | out
  | starting
  | turn (next last : Option A)
  | polling (op : A) (next last : Option A)
  | polled (op : A) (next last : Option A) (result : Result)
  | passed (op : A) (next last : Option A)
  | ending

/-- What a record is used for. -/
inductive Place (T : Type*)
  | unallocated
  | free (t : T)
  | held (t : T)
  | active

/-- The records, the list and its locks. The last fields are history: the number of the op that a record
holds, what is on the list, and what has happened to the ops. -/
structure State (T A : Type*) where
  list : Links Unit A
  tail_p : Link Unit A
  enabled : Bool
  eop : A → Option Nat
  op_freelist : T → List A
  sub : T → Sub A
  active_lock : Option T
  poll_lock : Option T
  in_poll : T → Bool
  pc : Pc A
  place : A → Place T
  number : A → Nat
  created : Nat
  active : List A
  submitted : List Nat
  signalled : List Nat
  destroyed : List Nat
  reported : List (Nat × Result)
  present : List Nat
  visited : List Nat

variable {T A : Type*}

/-- The record of a submission. -/
def Sub.op : Sub A → Option A
  | .idle => none
  | .created a | .locked a | .linked a => some a

/-- A submission that has the active lock. -/
def Sub.Locks : Sub A → Prop
  | .locked _ | .linked _ => True
  | _ => False

namespace State

variable (s : State T A)

/-- The ops that have been submitted and not become inactive. -/
def live : List Nat := s.submitted.filter (· ∉ s.destroyed)

/-- A thread that polls submits only from a poll function. -/
def MaySubmit (t : T) : Prop := s.poll_lock = some t → ∃ op next last, s.pc = .polling op next last

/-- `gasnete_coll_active_last`, which is of no record where the list is empty. -/
def last : Option A :=
  match s.tail_p with
  | .next a => some a
  | .head _ => none

/-- `gasnete_coll_active_new`. -/
def newLinks [DecidableEq A] (L : Links Unit A) (op : A) : Links Unit A :=
  { L with next := Function.update L.next op none, prev := Function.update L.prev op (.next op) }

variable [DecidableEq T] [DecidableEq A]

/-- `gasnete_coll_op_complete`, and what `gasnete_coll_active_del` and `gasnete_coll_op_destroy` do for an
op that is inactive. -/
def complete (t : T) (op : A) (next last : Option A) (r : Result) : State T A :=
  { s with
    signalled := if r.complete then s.signalled ++ (s.eop op).toList else s.signalled
    eop := if r.complete then Function.update s.eop op none else s.eop
    list := if r.inactive then (s.list.remove op).store (.next op) (s.op_freelist t).head? else s.list
    tail_p := if r.inactive = true ∧ s.list.next op = none then s.list.prev op else s.tail_p
    enabled := if r.inactive = true ∧ (s.list.remove op).head () = none then false else s.enabled
    op_freelist := if r.inactive then Function.update s.op_freelist t (op :: s.op_freelist t)
      else s.op_freelist
    place := if r.inactive then Function.update s.place op (.free t) else s.place
    active := if r.inactive then s.active.erase op else s.active
    destroyed := if r.inactive then s.destroyed ++ [s.number op] else s.destroyed
    reported := s.reported ++ [(s.number op, r)]
    pc := .passed op next last }

end State

variable [DecidableEq T] [DecidableEq A]

/-- A step of thread `t`. Between two steps of `gasnete_coll_active_ins` other threads run, and the one
that polls reads links without the lock. -/
inductive Step : State T A → T → State T A → Prop
  | create {s : State T A} {t : T} {op : A} {others : List A} :
      s.MaySubmit t → s.sub t = .idle →
      (s.op_freelist t = op :: others ∨
        s.op_freelist t = [] ∧ others = [] ∧ s.place op = .unallocated) →
      Step s t { s with
        op_freelist := Function.update s.op_freelist t others
        list := State.newLinks s.list op
        eop := Function.update s.eop op none
        sub := Function.update s.sub t (.created op)
        place := Function.update s.place op (.held t)
        number := Function.update s.number op s.created
        created := s.created + 1 }
  | lock {s : State T A} {t : T} {op : A} : s.sub t = .created op → s.active_lock = none →
      Step s t { s with
        eop := Function.update s.eop op (some (s.number op))
        active_lock := some t
        sub := Function.update s.sub t (.locked op) }
  | link {s : State T A} {t : T} {op : A} : s.sub t = .locked op →
      Step s t { s with
        enabled := if s.list.head () = none then true else s.enabled
        list := s.list.store s.tail_p (some op)
        sub := Function.update s.sub t (.linked op) }
  | join {s : State T A} {t : T} {op : A} : s.sub t = .linked op →
      Step s t { s with
        list := s.list.setPrev (some op) s.tail_p
        tail_p := .next op
        active_lock := none
        sub := Function.update s.sub t .idle
        place := Function.update s.place op .active
        active := s.active ++ [op]
        submitted := s.submitted ++ [s.number op] }
  | enter {s : State T A} {t : T} : s.sub t = .idle → s.in_poll t = false → s.poll_lock = none →
      Step s t { s with
        in_poll := Function.update s.in_poll t true
        poll_lock := some t
        pc := .starting }
  | first {s : State T A} {t : T} : s.poll_lock = some t → s.pc = .starting → s.active_lock = none →
      Step s t { s with
        pc := if s.list.head () = none then .ending else .turn (s.list.head ()) s.last
        present := s.live
        visited := [] }
  | poll {s : State T A} {t : T} {op : A} {last : Option A} : s.poll_lock = some t →
      s.pc = .turn (some op) last →
      Step s t { s with
        pc := .polling op (s.list.next op) last
        visited := s.visited ++ [s.number op] }
  | result {s : State T A} {t : T} {op : A} {next last : Option A} (r : Result) : s.poll_lock = some t →
      s.pc = .polling op next last → s.sub t = .idle →
      Step s t { s with
        pc := if r.complete ∨ r.inactive then .polled op next last r else .passed op next last }
  | complete {s : State T A} {t : T} {op : A} {next last : Option A} {r : Result} :
      s.poll_lock = some t → s.pc = .polled op next last r → s.active_lock = none →
      Step s t (s.complete t op next last r)
  | pass {s : State T A} {t : T} {op : A} {next last : Option A} : s.poll_lock = some t →
      s.pc = .passed op next last →
      Step s t { s with pc := if some op = last then .ending else .turn next last }
  | leave {s : State T A} {t : T} : s.poll_lock = some t → s.pc = .ending →
      Step s t { s with
        in_poll := Function.update s.in_poll t false
        poll_lock := none
        pc := .out }

/-- After `gasnete_coll_active_init`, with any records in memory. -/
def State.initial (list : Links Unit A) (eop : A → Option Nat) : State T A where
  list := { list with head := fun _ => none }
  tail_p := .head ()
  enabled := false
  eop := eop
  op_freelist _ := []
  sub _ := .idle
  active_lock := none
  poll_lock := none
  in_poll _ := false
  pc := .out
  place _ := .unallocated
  number _ := 0
  created := 0
  active := []
  submitted := []
  signalled := []
  destroyed := []
  reported := []
  present := []
  visited := []

/-- The states of the runs. -/
def Reached (s : State T A) : Prop := ∃ list eop, Reachable Step (State.initial list eop) s

end Gasnet.ActiveList
