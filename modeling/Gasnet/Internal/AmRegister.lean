import Mathlib.Data.List.FinRange
import Mathlib.Data.List.Forall2
import Mathlib.Data.List.Nodup
import Mathlib.Data.List.Perm.Basic
import Mathlib.Logic.Function.Basic
import Gasnet.Foundation.Run

/-! The handler table of an endpoint, and the calls that register handlers in it. -/
namespace Gasnet.AmRegister

/-- `gex_AM_Entry_t`. -/
structure Entry (Fn : Type*) where
  gex_index : Fin 256
  gex_fnptr : Fn
  gex_flags : BitVec 32
  gex_nargs : Nat
  gex_cdata : Nat
  gex_name : Option String

/-- `_amtbl`, of `GASNETC_MAX_NUMHANDLERS` entries. -/
abbrev Table (Fn : Type*) := Fin 256 → Entry Fn

def GASNETI_CLIENT_HANDLER_BASE : Nat := 128
def GASNETC_MAX_NUMHANDLERS : Nat := 256
def GASNETI_HANDLER_NARGS_UNK : Nat := 255
def GEX_FLAG_AM_SHORT : BitVec 32 := 1
def GEX_FLAG_AM_MEDIUM : BitVec 32 := 2
def GEX_FLAG_AM_LONG : BitVec 32 := 4
def GEX_FLAG_AM_REQREP : BitVec 32 := 24
def GASNETI_FLAG_AM_ANY : BitVec 32 := 31
def GASNETI_FLAG_INIT_LEGACY : BitVec 32 := 0x80000000

inductive Code
  | BAD_ARG
  | RESOURCE
  deriving DecidableEq, Repr

/-- What a call comes to: it returns, with the reason that is reported for an error, or the job ends. -/
inductive Rc
  | ok
  | err (code : Code) (reason : String)
  | fatal (message : String)
  deriving DecidableEq, Repr

/-- What depends on the conduit: `gex_AM_MaxArgs`, and whether `gasnetc_amregister` takes a handler. -/
structure Conduit (Fn : Type*) where
  maxArgs : Nat
  accepts : Fn → Bool

variable {Fn : Type*}

def badCategory (flags : BitVec 32) : Option String :=
  let category := flags &&& (GEX_FLAG_AM_SHORT ||| GEX_FLAG_AM_MEDIUM ||| GEX_FLAG_AM_LONG)
  if category = 0 then
    some "none of GEX_FLAG_AM_SHORT, GEX_FLAG_AM_MEDIUM, or GEX_FLAG_AM_LONG"
  else if category = GEX_FLAG_AM_SHORT ||| GEX_FLAG_AM_MEDIUM ||| GEX_FLAG_AM_LONG then
    some "invalid combination (GEX_FLAG_AM_SHORT | GEX_FLAG_AM_MEDIUM | GEX_FLAG_AM_LONG)"
  else if category = GEX_FLAG_AM_SHORT ||| GEX_FLAG_AM_MEDIUM then
    some "invalid combination (GEX_FLAG_AM_SHORT | GEX_FLAG_AM_MEDIUM )"
  else if category = GEX_FLAG_AM_SHORT ||| GEX_FLAG_AM_LONG then
    some "invalid combination (GEX_FLAG_AM_SHORT | GEX_FLAG_AM_LONG)"
  else none

/-- The message for entry `i`, if it breaks a rule. -/
def badEntry (c : Conduit Fn) (i : Nat) (e : Entry Fn) : Option String :=
  if c.maxArgs < e.gex_nargs then
    some s!"AM Handler table entry {i}: invalid gex_nargs: {e.gex_nargs} (Max {c.maxArgs})"
  else if e.gex_flags &&& GEX_FLAG_AM_REQREP = 0 then
    some s!"AM Handler table entry {i}(idx={e.gex_index}): invalid gex_flags: contains neither GEX_FLAG_AM_REQUEST nor GEX_FLAG_AM_REPLY"
  else
    (badCategory e.gex_flags).map fun cat_msg =>
      s!"AM Handler table entry {i}(idx={e.gex_index}): invalid gex_flags: contains {cat_msg}"

def isLegacy (e : Entry Fn) : Bool :=
  e.gex_nargs = GASNETI_HANDLER_NARGS_UNK && e.gex_flags = GASNETI_FLAG_AM_ANY ||| GASNETI_FLAG_INIT_LEGACY

/-- `gasneti_am_validate`: the message with which it ends the job, if any. -/
def gasneti_am_validate (c : Conduit Fn) : List (Entry Fn) → Option String
  | [] => none
  | e :: es =>
    if e.gex_nargs = GASNETI_HANDLER_NARGS_UNK ∨ e.gex_flags &&& GASNETI_FLAG_INIT_LEGACY ≠ 0 then
      if (e :: es).all isLegacy then none else some "Assertion failure"
    else ((e :: es).mapIdx (badEntry c)).findSome? id

/-- A slot of the table is free. -/
def Free (t : Table Fn) (i : Fin 256) : Prop := (t i).gex_index = 0

instance (t : Table Fn) : DecidablePred (Free t) := fun _ => inferInstanceAs (Decidable (_ = _))

/-- The indices from `highlimit - 1` down to `lowlimit`. -/
def downFrom (highlimit lowlimit : Nat) : List (Fin 256) :=
  ((List.finRange 256).filter fun i => lowlimit ≤ i.val ∧ i.val < highlimit).reverse

/-- What a pass over a table leaves: the return code, the table of the endpoint, the table of the caller
and the number of handlers registered. -/
structure Pass (Fn : Type*) where
  rc : Rc
  output : Table Fn
  input : List (Entry Fn)
  numregistered : Nat

/-- The index for an entry. -/
def newIndex (t : Table Fn) (lowlimit highlimit : Nat) (e : Entry Fn) : Option (Fin 256) :=
  if e.gex_index ≠ 0 then some e.gex_index else (downFrom highlimit lowlimit).find? (Free t)

/-- Why an entry cannot be installed, or where it goes. -/
def place (c : Conduit Fn) (t : Table Fn) (lowlimit highlimit : Nat) (e : Entry Fn) : Except Rc (Fin 256) :=
  match newIndex t lowlimit highlimit e with
  | none => .error (.err .BAD_ARG s!"Too many handlers. (limit={highlimit - lowlimit})")
  | some i =>
    if i.val < lowlimit ∨ highlimit ≤ i.val then
      .error (.err .BAD_ARG s!"handler index ({i}) out of range [{lowlimit}..{highlimit})")
    else if ¬ Free t i then .error (.err .BAD_ARG "handler index not unique")
    else if ¬ c.accepts e.gex_fnptr then
      .error (.err .RESOURCE "AM_SetHandler() failed while registering handlers")
    else .ok i

/-- The loop of `gasneti_amregister`: `dontcare` selects the entries with index 0, or the others. -/
def registerLoop (c : Conduit Fn) (lowlimit highlimit : Nat) (dontcare : Bool) :
    List (Entry Fn) → Table Fn → Pass Fn
  | [], t => ⟨.ok, t, [], 0⟩
  | e :: es, t =>
    if decide (e.gex_index = 0) ≠ dontcare then
      let r := registerLoop c lowlimit highlimit dontcare es t
      { r with input := e :: r.input }
    else
      match place c t lowlimit highlimit e with
      | .error rc => ⟨rc, t, e :: es, 0⟩
      | .ok i =>
        let e' := { e with gex_index := i }
        let r := registerLoop c lowlimit highlimit dontcare es (Function.update t i e')
        { r with input := e' :: r.input, numregistered := r.numregistered + 1 }

def gasneti_amregister (c : Conduit Fn) (lowlimit highlimit : Nat) (dontcare : Bool)
    (input : List (Entry Fn)) (t : Table Fn) : Pass Fn :=
  match gasneti_am_validate c input with
  | some message => ⟨.fatal message, t, input, 0⟩
  | none => registerLoop c lowlimit highlimit dontcare input t

/-- The two passes of `gasneti_amregister_client`. -/
def gasneti_amregister_client (c : Conduit Fn) (input : List (Entry Fn)) (t : Table Fn) : Pass Fn :=
  if input.length = 0 then ⟨.ok, t, input, 0⟩
  else if GASNETC_MAX_NUMHANDLERS - GASNETI_CLIENT_HANDLER_BASE < input.length then
    ⟨.err .BAD_ARG "Tried to register too many handlers", t, input, 0⟩
  else
    let r1 := gasneti_amregister c GASNETI_CLIENT_HANDLER_BASE GASNETC_MAX_NUMHANDLERS false input t
    match r1.rc with
    | .fatal message => { r1 with rc := .fatal message }
    | .err _ _ => { r1 with rc := .err .RESOURCE "Error registering fixed-index client handlers" }
    | .ok =>
      let r2 := gasneti_amregister c GASNETI_CLIENT_HANDLER_BASE GASNETC_MAX_NUMHANDLERS true r1.input r1.output
      match r2.rc with
      | .fatal message => { r2 with rc := .fatal message }
      | .err _ _ => { r2 with rc := .err .RESOURCE "Error registering variable-index client handlers" }
      | .ok => { r2 with numregistered := r1.numregistered + r2.numregistered }

/-- The entry that `gasneti_amregister_legacy` makes of a `gasnet_handlerentry_t`. -/
def ofLegacy (h : Fin 256 × Fn) : Entry Fn where
  gex_index := h.1
  gex_fnptr := h.2
  gex_flags := GASNETI_FLAG_AM_ANY ||| GASNETI_FLAG_INIT_LEGACY
  gex_nargs := GASNETI_HANDLER_NARGS_UNK
  gex_cdata := 0
  gex_name := none

/-- `gasneti_amregister_legacy`: what it returns, the table of the endpoint, and that of the caller, whose
indices are set where the call succeeds. -/
def gasneti_amregister_legacy (c : Conduit Fn) (table : List (Fin 256 × Fn)) (t : Table Fn) :
    Rc × Table Fn × List (Fin 256 × Fn) :=
  let r := gasneti_amregister_client c (table.map ofLegacy) t
  match r.rc with
  | .ok => (.ok, r.output, r.input.map fun e => (e.gex_index, e.gex_fnptr))
  | .err .BAD_ARG reason => (.err .BAD_ARG reason, r.output, table)
  | .err .RESOURCE _ => (.err .RESOURCE "Error registering client handlers", r.output, table)
  | .fatal message => (.fatal message, r.output, table)

/-- `gasneti_amtbl_init`: each slot is free and has the handler that reports the error. -/
def gasneti_amtbl_init (gasneti_defaultAMHandler : Fn) : Table Fn := fun i =>
  { gex_index := 0
    gex_fnptr := gasneti_defaultAMHandler
    gex_flags := GASNETI_FLAG_AM_ANY
    gex_nargs := GASNETI_HANDLER_NARGS_UNK
    gex_cdata := i.val
    gex_name := some "gasneti_defaultAMHandler" }

/-! ### Installing entries -/

variable {c : Conduit Fn} {t : Table Fn} {input es fs : List (Entry Fn)} {e : Entry Fn} {i : Fin 256}
  {low high : Nat}

/-- The entries are put in the slots of their indices. -/
def install (t : Table Fn) (es : List (Entry Fn)) : Table Fn :=
  es.foldl (fun t e => Function.update t e.gex_index e) t

/-- The entries have slots of their own, which are in range and free. -/
structure Fits (t : Table Fn) (low high : Nat) (es : List (Entry Fn)) : Prop where
  nodup : (es.map Entry.gex_index).Nodup
  range : ∀ e ∈ es, low ≤ e.gex_index.val ∧ e.gex_index.val < high
  free : ∀ e ∈ es, Free t e.gex_index

theorem fits_nil : Fits t low high [] := ⟨List.nodup_nil, nofun, nofun⟩

theorem not_free_update (hi : i ≠ 0) (he : e.gex_index = i) : ¬Free (Function.update t i e) i := by
  intro h
  rw [Free, Function.update_self, he] at h
  exact hi h

theorem free_update_of_ne {j : Fin 256} (h : j ≠ i) : Free (Function.update t i e) j ↔ Free t j := by
  rw [Free, Free, Function.update_of_ne h]

/-- Entries fit one after the other. -/
theorem fits_cons (hlow : 0 < low) :
    Fits t low high (e :: es) ↔
      (low ≤ e.gex_index.val ∧ e.gex_index.val < high ∧ Free t e.gex_index) ∧
        Fits (Function.update t e.gex_index e) low high es := by
  constructor
  · rintro ⟨hnodup, hrange, hfree⟩
    rw [List.map_cons, List.nodup_cons] at hnodup
    obtain ⟨hout, hnodup⟩ := hnodup
    obtain ⟨hge, hlt⟩ := hrange e List.mem_cons_self
    refine ⟨⟨hge, hlt, hfree e List.mem_cons_self⟩, hnodup, ?_, ?_⟩
    · intro f hf
      exact hrange f (List.mem_cons_of_mem _ hf)
    · intro f hf
      have hne : f.gex_index ≠ e.gex_index := fun heq => hout (heq ▸ List.mem_map_of_mem hf)
      exact (free_update_of_ne hne).mpr (hfree f (List.mem_cons_of_mem _ hf))
  · rintro ⟨⟨hge, hlt, hfree⟩, hfits⟩
    have hne0 : e.gex_index ≠ 0 := by
      intro h
      rw [h] at hge
      exact absurd hge (by simpa using hlow.ne')
    have hne : ∀ f ∈ es, f.gex_index ≠ e.gex_index := by
      intro f hf heq
      have hf' := hfits.free f hf
      rw [heq] at hf'
      exact not_free_update hne0 rfl hf'
    refine ⟨?_, ?_, ?_⟩
    · rw [List.map_cons, List.nodup_cons]
      refine ⟨?_, hfits.nodup⟩
      intro hmem
      obtain ⟨f, hf, heq⟩ := List.mem_map.mp hmem
      exact hne f hf heq
    · intro f hf
      rcases List.mem_cons.mp hf with rfl | hf
      · exact ⟨hge, hlt⟩
      · exact hfits.range f hf
    · intro f hf
      rcases List.mem_cons.mp hf with rfl | hf
      · exact hfree
      · exact (free_update_of_ne (hne f hf)).mp (hfits.free f hf)

theorem install_cons : install t (e :: es) = install (Function.update t e.gex_index e) es := rfl

theorem install_append : install t (es ++ fs) = install (install t es) fs := List.foldl_append

theorem install_of_not_mem (h : i ∉ es.map Entry.gex_index) : install t es i = t i := by
  induction es generalizing t with
  | nil => rfl
  | cons e es ih =>
    rw [List.map_cons, List.mem_cons, not_or] at h
    rw [install_cons, ih h.2, Function.update_of_ne h.1]

theorem install_of_mem (hnodup : (es.map Entry.gex_index).Nodup) (he : e ∈ es) :
    install t es e.gex_index = e := by
  induction es generalizing t with
  | nil => cases he
  | cons f es ih =>
    rw [List.map_cons, List.nodup_cons] at hnodup
    rw [install_cons]
    rcases List.mem_cons.mp he with rfl | he
    · rw [install_of_not_mem hnodup.1, Function.update_self]
    · exact ih hnodup.2 he

/-- The order in which entries are installed does not matter. -/
theorem install_perm (h : es.Perm fs) (hnodup : (es.map Entry.gex_index).Nodup) :
    install t es = install t fs := by
  have hnodup' : (fs.map Entry.gex_index).Nodup := (h.map _).nodup_iff.mp hnodup
  funext i
  by_cases hi : i ∈ es.map Entry.gex_index
  · obtain ⟨e, he, rfl⟩ := List.mem_map.mp hi
    rw [install_of_mem hnodup he, install_of_mem hnodup' (h.subset he)]
  · rw [install_of_not_mem hi, install_of_not_mem fun hmem => hi ((h.map _).symm.subset hmem)]

theorem Fits.perm (h : Fits t low high es) (hp : es.Perm fs) : Fits t low high fs where
  nodup := (hp.map _).nodup_iff.mp h.nodup
  range e he := h.range e (hp.symm.subset he)
  free e he := h.free e (hp.symm.subset he)

theorem Fits.append (hlow : 0 < low) :
    Fits t low high (es ++ fs) ↔ Fits t low high es ∧ Fits (install t es) low high fs := by
  induction es generalizing t with
  | nil => simp [fits_nil, install]
  | cons e es ih =>
    rw [List.cons_append, fits_cons hlow, fits_cons hlow, ih, install_cons]
    exact and_assoc.symm

/-! ### The passes -/

/-- The entries with an index of their own, and the others. -/
def fixed (input : List (Entry Fn)) : List (Entry Fn) := input.filter fun e => e.gex_index ≠ 0

def zeros (input : List (Entry Fn)) : List (Entry Fn) := input.filter fun e => e.gex_index = 0

/-- The free slots, from the top down. -/
def freeSlots (t : Table Fn) (low high : Nat) : List (Fin 256) := (downFrom high low).filter (Free t)

/-- Entries get the slots in turn. -/
def numbered (es : List (Entry Fn)) (slots : List (Fin 256)) : List (Entry Fn) :=
  List.zipWith (fun e i => { e with gex_index := i }) es slots

/-- The table of the caller, with the slots that its entries without an index got. -/
def assign : List (Entry Fn) → List (Fin 256) → List (Entry Fn)
  | [], _ => []
  | e :: es, slots =>
    if e.gex_index ≠ 0 then e :: assign es slots
    else match slots with
      | [] => e :: es
      | i :: slots => { e with gex_index := i } :: assign es slots

theorem mem_downFrom : i ∈ downFrom high low ↔ low ≤ i.val ∧ i.val < high := by
  simp [downFrom]

theorem mem_freeSlots : i ∈ freeSlots t low high ↔ (low ≤ i.val ∧ i.val < high) ∧ Free t i := by
  rw [freeSlots, List.mem_filter, mem_downFrom, decide_eq_true_iff]

theorem nodup_freeSlots (t : Table Fn) (low high : Nat) : (freeSlots t low high).Nodup := by
  apply List.Nodup.filter
  rw [downFrom, List.nodup_reverse]
  exact (List.nodup_finRange 256).filter _

theorem ne_zero_of_low (hlow : 0 < low) (h : low ≤ i.val) : i ≠ 0 := by
  rintro rfl
  exact absurd h (by simpa using hlow.ne')

/-- What is free once an entry has been installed. -/
theorem freeSlots_update (hi : i ≠ 0) (he : e.gex_index = i) :
    freeSlots (Function.update t i e) low high = (freeSlots t low high).filter (· ≠ i) := by
  rw [freeSlots, freeSlots, List.filter_filter]
  apply List.filter_congr
  intro j _
  by_cases hj : j = i
  · subst hj
    simp [not_free_update hi he]
  · simp [free_update_of_ne hj, hj]

theorem place_fixed (c : Conduit Fn) (t : Table Fn) (low high : Nat) (he : e.gex_index ≠ 0) :
    (place c t low high e = .ok e.gex_index ∧
      (low ≤ e.gex_index.val ∧ e.gex_index.val < high ∧ Free t e.gex_index) ∧ c.accepts e.gex_fnptr) ∨
    (∃ code reason, place c t low high e = .error (.err code reason)) ∧
      ¬((low ≤ e.gex_index.val ∧ e.gex_index.val < high ∧ Free t e.gex_index) ∧ c.accepts e.gex_fnptr) := by
  simp only [place, newIndex, if_pos he]
  by_cases hrange : e.gex_index.val < low ∨ high ≤ e.gex_index.val
  · rw [if_pos hrange]
    right
    refine ⟨⟨_, _, rfl⟩, ?_⟩
    rintro ⟨⟨hge, hlt, -⟩, -⟩
    omega
  · rw [if_neg hrange]
    by_cases hfree : Free t e.gex_index
    · rw [if_neg (not_not.mpr hfree)]
      by_cases hacc : c.accepts e.gex_fnptr = true
      · rw [if_neg (not_not.mpr hacc)]
        left
        exact ⟨rfl, ⟨by omega, by omega, hfree⟩, hacc⟩
      · rw [if_pos hacc]
        right
        exact ⟨⟨_, _, rfl⟩, fun h => hacc h.2⟩
    · rw [if_pos hfree]
      right
      exact ⟨⟨_, _, rfl⟩, fun h => hfree h.1.2.2⟩

theorem place_zero (c : Conduit Fn) (t : Table Fn) (low high : Nat) (he : e.gex_index = 0) :
    (∃ i slots, freeSlots t low high = i :: slots ∧ place c t low high e = .ok i ∧ c.accepts e.gex_fnptr) ∨
    (∃ code reason, place c t low high e = .error (.err code reason)) ∧
      (freeSlots t low high = [] ∨ ¬c.accepts e.gex_fnptr) := by
  have hnew : newIndex t low high e = (freeSlots t low high).head? := by
    rw [newIndex, if_neg (not_not.mpr he), freeSlots, List.head?_filter]
  cases hslots : freeSlots t low high with
  | nil =>
    right
    refine ⟨?_, .inl rfl⟩
    rw [hslots, List.head?_nil] at hnew
    simp only [place, hnew]
    exact ⟨_, _, rfl⟩
  | cons i slots =>
    rw [hslots, List.head?_cons] at hnew
    obtain ⟨⟨hge, hlt⟩, hfree⟩ := mem_freeSlots.mp (hslots ▸ List.mem_cons_self : i ∈ freeSlots t low high)
    simp only [place, hnew]
    rw [if_neg (by omega), if_neg (not_not.mpr hfree)]
    by_cases hacc : c.accepts e.gex_fnptr = true
    · rw [if_neg (not_not.mpr hacc)]
      exact .inl ⟨i, slots, rfl, rfl, hacc⟩
    · rw [if_pos hacc]
      exact .inr ⟨⟨_, _, rfl⟩, .inr hacc⟩

/-- How a pass ends: with all entries installed, or with an error at the first of those that are left. -/
def Ends (rc : Rc) (left : List (Entry Fn)) (refused : Entry Fn → Prop) : Prop :=
  rc = .ok ∧ left = [] ∨ (∃ code reason, rc = .err code reason) ∧ ∃ e es, left = e :: es ∧ refused e

theorem Ends.mono {rc : Rc} {left : List (Entry Fn)} {p q : Entry Fn → Prop} (h : Ends rc left p)
    (hpq : ∀ e, p e → q e) : Ends rc left q := by
  rcases h with h | ⟨herr, e, es, hleft, hp⟩
  · exact .inl h
  · exact .inr ⟨herr, e, es, hleft, hpq e hp⟩

/-- What the first pass does. -/
structure FixedPass (c : Conduit Fn) (t : Table Fn) (low high : Nat) (input : List (Entry Fn))
    (r : Pass Fn) (done left : List (Entry Fn)) : Prop where
  split : fixed input = done ++ left
  input : r.input = input
  output : r.output = install t done
  numregistered : r.numregistered = done.length
  fits : Fits t low high done
  accepts : ∀ e ∈ done, c.accepts e.gex_fnptr
  ends : Ends r.rc left fun e => ¬(Fits t low high (done ++ [e]) ∧ c.accepts e.gex_fnptr)

theorem registerLoop_fixed (c : Conduit Fn) (hlow : 0 < low) (high : Nat) (input : List (Entry Fn)) (t : Table Fn) :
    ∃ done left, FixedPass c t low high input (registerLoop c low high false input t) done left := by
  induction input generalizing t with
  | nil => exact ⟨[], [], rfl, rfl, rfl, rfl, fits_nil, nofun, .inl ⟨rfl, rfl⟩⟩
  | cons e input ih =>
    by_cases he : e.gex_index = 0
    · obtain ⟨done, left, h⟩ := ih t
      have hloop : registerLoop c low high false (e :: input) t =
          { registerLoop c low high false input t with
            input := e :: (registerLoop c low high false input t).input } := by
        rw [registerLoop, if_pos (by simp [he])]
      rw [hloop]
      refine ⟨done, left, ?_, congrArg (e :: ·) h.input, h.output, h.numregistered, h.fits, h.accepts, h.ends⟩
      rw [fixed, List.filter_cons_of_neg (by simp [he])]
      exact h.split
    · have hfixed : fixed (e :: input) = e :: fixed input := List.filter_cons_of_pos (by simp [he])
      rcases place_fixed c t low high he with ⟨hplace, hfit, hacc⟩ | ⟨⟨code, reason, hplace⟩, hnot⟩
      · obtain ⟨done, left, h⟩ := ih (Function.update t e.gex_index e)
        have hloop : registerLoop c low high false (e :: input) t =
            { registerLoop c low high false input (Function.update t e.gex_index e) with
              input := e :: (registerLoop c low high false input (Function.update t e.gex_index e)).input
              numregistered :=
                (registerLoop c low high false input (Function.update t e.gex_index e)).numregistered + 1 } := by
          rw [registerLoop, if_neg (by simp [he]), hplace]
        rw [hloop]
        refine ⟨e :: done, left, ?_, congrArg (e :: ·) h.input, h.output, congrArg (· + 1) h.numregistered,
          (fits_cons hlow).mpr ⟨hfit, h.fits⟩, ?_, h.ends.mono fun s hs => ?_⟩
        · rw [hfixed, h.split]
          rfl
        · intro f hf
          rcases List.mem_cons.mp hf with rfl | hf
          · exact hacc
          · exact h.accepts f hf
        · rintro ⟨hfits, hacc'⟩
          rw [List.cons_append, fits_cons hlow] at hfits
          exact hs ⟨hfits.2, hacc'⟩
      · have hloop : registerLoop c low high false (e :: input) t = ⟨.err code reason, t, e :: input, 0⟩ := by
          rw [registerLoop, if_neg (by simp [he]), hplace]
        rw [hloop]
        refine ⟨[], e :: fixed input, hfixed, rfl, rfl, rfl, fits_nil, nofun, .inr ⟨⟨_, _, rfl⟩, e, _, rfl, ?_⟩⟩
        rintro ⟨hfits, hacc⟩
        exact hnot ⟨((fits_cons hlow).mp hfits).1, hacc⟩

/-- What the second pass does. -/
structure ZeroPass (c : Conduit Fn) (t : Table Fn) (low high : Nat) (input : List (Entry Fn))
    (r : Pass Fn) (done left : List (Entry Fn)) : Prop where
  split : zeros input = done ++ left
  length_le : done.length ≤ (freeSlots t low high).length
  output : r.output = install t (numbered done (freeSlots t low high))
  numregistered : r.numregistered = done.length
  accepts : ∀ e ∈ done, c.accepts e.gex_fnptr
  input : left = [] → r.input = assign input (freeSlots t low high)
  ends : Ends r.rc left fun e => done.length = (freeSlots t low high).length ∨ ¬c.accepts e.gex_fnptr

theorem assign_fixed (he : e.gex_index ≠ 0) (slots : List (Fin 256)) :
    assign (e :: es) slots = e :: assign es slots := by
  simp [assign, he]

theorem registerLoop_zeros (c : Conduit Fn) (hlow : 0 < low) (high : Nat) (input : List (Entry Fn)) (t : Table Fn) :
    ∃ done left, ZeroPass c t low high input (registerLoop c low high true input t) done left := by
  induction input generalizing t with
  | nil => exact ⟨[], [], rfl, Nat.zero_le _, rfl, rfl, nofun, fun _ => rfl, .inl ⟨rfl, rfl⟩⟩
  | cons e input ih =>
    by_cases he : e.gex_index = 0
    · have hzeros : zeros (e :: input) = e :: zeros input := List.filter_cons_of_pos (by simp [he])
      rcases place_zero c t low high he with ⟨i, slots, hslots, hplace, hacc⟩ | ⟨⟨code, reason, hplace⟩, hnot⟩
      · have hmem : i ∈ freeSlots t low high := hslots ▸ List.mem_cons_self
        have hi : i ≠ 0 := ne_zero_of_low hlow (mem_freeSlots.mp hmem).1.1
        have hrest : freeSlots (Function.update t i { e with gex_index := i }) low high = slots := by
          have hnodup := nodup_freeSlots t low high
          rw [freeSlots_update hi rfl, hslots]
          rw [hslots, List.nodup_cons] at hnodup
          rw [List.filter_cons_of_neg (by simp), List.filter_eq_self]
          intro j hj
          exact decide_eq_true fun heq => hnodup.1 (heq ▸ hj)
        obtain ⟨done, left, h⟩ := ih (Function.update t i { e with gex_index := i })
        have hloop : registerLoop c low high true (e :: input) t =
            { registerLoop c low high true input (Function.update t i { e with gex_index := i }) with
              input := { e with gex_index := i } ::
                (registerLoop c low high true input (Function.update t i { e with gex_index := i })).input
              numregistered := (registerLoop c low high true input
                (Function.update t i { e with gex_index := i })).numregistered + 1 } := by
          rw [registerLoop, if_neg (by simp [he]), hplace]
        have hlen := h.length_le
        have hout := h.output
        have hin := h.input
        have hends := h.ends
        rw [hrest] at hlen hout hin hends
        rw [hloop]
        refine ⟨e :: done, left, ?_, ?_, ?_, congrArg (· + 1) h.numregistered, ?_, ?_, hends.mono fun s hs => ?_⟩
        · rw [hzeros, h.split]
          rfl
        · rw [hslots]
          exact Nat.succ_le_succ hlen
        · rw [hslots]
          exact hout
        · intro f hf
          rcases List.mem_cons.mp hf with rfl | hf
          · exact hacc
          · exact h.accepts f hf
        · intro hleft
          rw [hslots, assign, if_neg (not_not.mpr he)]
          exact congrArg _ (hin hleft)
        · rw [hslots]
          exact hs.imp (congrArg (· + 1)) id
      · have hloop : registerLoop c low high true (e :: input) t = ⟨.err code reason, t, e :: input, 0⟩ := by
          rw [registerLoop, if_neg (by simp [he]), hplace]
        rw [hloop]
        refine ⟨[], e :: zeros input, hzeros, Nat.zero_le _, rfl, rfl, nofun, nofun,
          .inr ⟨⟨_, _, rfl⟩, e, _, rfl, hnot.imp (fun h => ?_) id⟩⟩
        rw [h]
        rfl
    · obtain ⟨done, left, h⟩ := ih t
      have hloop : registerLoop c low high true (e :: input) t =
          { registerLoop c low high true input t with
            input := e :: (registerLoop c low high true input t).input } := by
        rw [registerLoop, if_pos (by simp [he])]
      rw [hloop]
      refine ⟨done, left, ?_, h.length_le, h.output, h.numregistered, h.accepts, fun hleft => ?_, h.ends⟩
      · rw [zeros, List.filter_cons_of_neg (by simp [he])]
        exact h.split
      · rw [assign_fixed he]
        exact congrArg (e :: ·) (h.input hleft)

/-! ### A call -/

/-- The same entry, with a slot if it had no index. -/
def Renumbered (e e' : Entry Fn) : Prop :=
  ∃ i, e' = { e with gex_index := i } ∧ (e.gex_index ≠ 0 → i = e.gex_index)

/-- Each entry is in a slot of its own, in the range of the client, that was free, and no other slot has
changed. -/
structure Installed (t t' : Table Fn) (es : List (Entry Fn)) : Prop where
  nodup : (es.map Entry.gex_index).Nodup
  slot : ∀ e ∈ es, GASNETI_CLIENT_HANDLER_BASE ≤ e.gex_index.val ∧ Free t e.gex_index ∧ t' e.gex_index = e
  others : ∀ i, i ∉ es.map Entry.gex_index → t' i = t i

/-- The free slots that no entry of the table names. -/
def spare (t : Table Fn) (input : List (Entry Fn)) : List (Fin 256) :=
  (freeSlots t GASNETI_CLIENT_HANDLER_BASE GASNETC_MAX_NUMHANDLERS).filter
    (· ∉ (fixed input).map Entry.gex_index)

/-- The fixed indices are distinct, in range and free, there are slots for the other entries, and the
conduit takes each handler. -/
structure Acceptable (c : Conduit Fn) (t : Table Fn) (input : List (Entry Fn)) : Prop where
  fits : Fits t GASNETI_CLIENT_HANDLER_BASE GASNETC_MAX_NUMHANDLERS (fixed input)
  enough : (zeros input).length ≤ (spare t input).length
  accepts : ∀ e ∈ input, c.accepts e.gex_fnptr

theorem Renumbered.refl (e : Entry Fn) : Renumbered e e := ⟨e.gex_index, rfl, fun _ => rfl⟩

theorem forall₂_renumbered_refl (es : List (Entry Fn)) : List.Forall₂ Renumbered es es :=
  List.forall₂_same.mpr fun e _ => Renumbered.refl e

theorem Fits.installed (h : Fits t GASNETI_CLIENT_HANDLER_BASE GASNETC_MAX_NUMHANDLERS es) :
    Installed t (install t es) es where
  nodup := h.nodup
  slot e he := ⟨(h.range e he).1, h.free e he, install_of_mem h.nodup he⟩
  others _ hi := install_of_not_mem hi

theorem Installed.perm {t' : Table Fn} (h : Installed t t' es) (hp : es.Perm fs) : Installed t t' fs where
  nodup := (hp.map _).nodup_iff.mp h.nodup
  slot e he := h.slot e (hp.symm.subset he)
  others i hi := h.others i fun hmem => hi ((hp.map _).subset hmem)

theorem mem_fixed_or_zeros (he : e ∈ input) : e ∈ fixed input ∨ e ∈ zeros input := by
  by_cases h : e.gex_index = 0
  · exact .inr (List.mem_filter.mpr ⟨he, by simp [h]⟩)
  · exact .inl (List.mem_filter.mpr ⟨he, by simp [h]⟩)

theorem length_fixed_zeros (input : List (Entry Fn)) :
    (fixed input).length + (zeros input).length = input.length := by
  induction input with
  | nil => rfl
  | cons e input ih =>
    by_cases he : e.gex_index = 0
    · rw [fixed, zeros, List.filter_cons_of_neg (by simp [he]), List.filter_cons_of_pos (by simp [he])]
      simp only [List.length_cons, fixed, zeros] at ih ⊢
      omega
    · rw [fixed, zeros, List.filter_cons_of_pos (by simp [he]), List.filter_cons_of_neg (by simp [he])]
      simp only [List.length_cons, fixed, zeros] at ih ⊢
      omega

theorem map_numbered (es : List (Entry Fn)) (slots : List (Fin 256)) :
    (numbered es slots).map Entry.gex_index = slots.take es.length := by
  induction es generalizing slots with
  | nil => rfl
  | cons e es ih =>
    cases slots with
    | nil => rfl
    | cons i slots => exact congrArg (i :: ·) (ih slots)

theorem fits_numbered (es : List (Entry Fn)) (t : Table Fn) :
    Fits t low high (numbered es (freeSlots t low high)) := by
  have hmem : ∀ e ∈ numbered es (freeSlots t low high), e.gex_index ∈ freeSlots t low high := by
    intro e he
    have hmap := List.mem_map_of_mem (f := Entry.gex_index) he
    rw [map_numbered] at hmap
    exact List.mem_of_mem_take hmap
  refine ⟨?_, fun e he => (mem_freeSlots.mp (hmem e he)).1, fun e he => (mem_freeSlots.mp (hmem e he)).2⟩
  rw [map_numbered]
  exact (nodup_freeSlots t low high).sublist (List.take_sublist _ _)

theorem renumbered_numbered {slots : List (Fin 256)} (hes : ∀ e ∈ es, e.gex_index = 0)
    (hlen : es.length ≤ slots.length) : List.Forall₂ Renumbered es (numbered es slots) := by
  induction es generalizing slots with
  | nil => exact .nil
  | cons e es ih =>
    cases slots with
    | nil => exact absurd hlen (by simp)
    | cons i slots =>
      refine .cons ⟨i, rfl, fun h => absurd (hes e List.mem_cons_self) h⟩ (ih ?_ (Nat.le_of_succ_le_succ hlen))
      intro f hf
      exact hes f (List.mem_cons_of_mem _ hf)

theorem assign_renumbered {slots : List (Fin 256)} (hlen : (zeros input).length ≤ slots.length) :
    List.Forall₂ Renumbered input (assign input slots) := by
  induction input generalizing slots with
  | nil => exact .nil
  | cons e input ih =>
    by_cases he : e.gex_index = 0
    · rw [zeros, List.filter_cons_of_pos (by simp [he])] at hlen
      cases slots with
      | nil => exact absurd hlen (by simp)
      | cons i slots =>
        rw [assign, if_neg (not_not.mpr he)]
        exact .cons ⟨i, rfl, fun h => absurd he h⟩ (ih (Nat.le_of_succ_le_succ hlen))
    · rw [zeros, List.filter_cons_of_neg (by simp [he])] at hlen
      rw [assign_fixed he]
      exact .cons (.refl e) (ih hlen)

theorem assign_perm {slots : List (Fin 256)} (hlen : (zeros input).length ≤ slots.length) :
    (assign input slots).Perm (fixed input ++ numbered (zeros input) slots) := by
  induction input generalizing slots with
  | nil => exact List.Perm.refl _
  | cons e input ih =>
    by_cases he : e.gex_index = 0
    · rw [zeros, List.filter_cons_of_pos (by simp [he])] at hlen
      rw [fixed, zeros, List.filter_cons_of_neg (by simp [he]), List.filter_cons_of_pos (by simp [he])]
      cases slots with
      | nil => exact absurd hlen (by simp)
      | cons i slots =>
        rw [assign, if_neg (not_not.mpr he)]
        exact ((ih (Nat.le_of_succ_le_succ hlen)).cons _).trans List.perm_middle.symm
    · rw [zeros, List.filter_cons_of_neg (by simp [he])] at hlen
      rw [assign_fixed he, fixed, zeros, List.filter_cons_of_pos (by simp [he]),
        List.filter_cons_of_neg (by simp [he])]
      exact (ih hlen).cons e

/-- What is free once entries have been installed. -/
theorem freeSlots_install (h : Fits t low high es) (hlow : 0 < low) :
    freeSlots (install t es) low high = (freeSlots t low high).filter (· ∉ es.map Entry.gex_index) := by
  rw [freeSlots, freeSlots, List.filter_filter]
  apply List.filter_congr
  intro i _
  rw [Bool.eq_iff_iff, decide_eq_true_iff, Bool.and_eq_true, decide_eq_true_iff, decide_eq_true_iff]
  by_cases hi : i ∈ es.map Entry.gex_index
  · obtain ⟨e, he, rfl⟩ := List.mem_map.mp hi
    have hne := ne_zero_of_low hlow (h.range e he).1
    rw [Free, install_of_mem h.nodup he]
    exact ⟨fun h0 => absurd h0 hne, fun h0 => absurd hi h0.1⟩
  · rw [Free, install_of_not_mem hi]
    exact ⟨fun h0 => ⟨hi, h0⟩, fun h0 => h0.2⟩

/-- The indices of the client's range. -/
theorem low_pos : 0 < GASNETI_CLIENT_HANDLER_BASE := by decide

theorem Acceptable.length_le (h : Acceptable c t input) :
    input.length ≤ GASNETC_MAX_NUMHANDLERS - GASNETI_CLIENT_HANDLER_BASE := by
  have hrange : ∀ i ∈ (fixed input).map Entry.gex_index ++ spare t input,
      GASNETI_CLIENT_HANDLER_BASE ≤ i.val := by
    intro i hi
    rcases List.mem_append.mp hi with hi | hi
    · obtain ⟨e, he, rfl⟩ := List.mem_map.mp hi
      exact (h.fits.range e he).1
    · exact (mem_freeSlots.mp (List.mem_filter.mp hi).1).1.1
  have hnodup : ((fixed input).map Entry.gex_index ++ spare t input).Nodup := by
    refine h.fits.nodup.append ((nodup_freeSlots t _ _).filter _) ?_
    intro i hi hspare
    exact of_decide_eq_true (List.mem_filter.mp hspare).2 hi
  have hsub : (((fixed input).map Entry.gex_index ++ spare t input).map Fin.val) ⊆
      List.range' GASNETI_CLIENT_HANDLER_BASE (GASNETC_MAX_NUMHANDLERS - GASNETI_CLIENT_HANDLER_BASE) := by
    intro n hn
    obtain ⟨i, hi, rfl⟩ := List.mem_map.mp hn
    exact List.mem_range'_1.mpr ⟨hrange i hi, i.isLt⟩
  have hlen := (List.subperm_of_subset (hnodup.map Fin.val_injective) hsub).length_le
  have henough := h.enough
  have hsplit := length_fixed_zeros input
  rw [List.length_map, List.length_append, List.length_map, List.length_range'] at hlen
  omega

/-- What a call does: it succeeds where the table is acceptable, and then installs all entries, those without
an index from the top down; one that fails has installed those before the entry at fault. -/
structure Registers (c : Conduit Fn) (t : Table Fn) (input : List (Entry Fn)) (r : Pass Fn) : Prop where
  returns : ∀ message, r.rc ≠ .fatal message
  ok_iff : r.rc = .ok ↔ Acceptable c t input
  installed : r.rc = .ok → List.Forall₂ Renumbered input r.input ∧ Installed t r.output r.input
  assigned : r.rc = .ok → r.input =
    assign input (freeSlots (install t (fixed input)) GASNETI_CLIENT_HANDLER_BASE GASNETC_MAX_NUMHANDLERS)
  numregistered : r.rc = .ok → r.numregistered = input.length
  failed : r.rc ≠ .ok → ∃ k es, k < input.length ∧
    List.Forall₂ Renumbered ((fixed input ++ zeros input).take k) es ∧ Installed t r.output es

theorem registers_nil (c : Conduit Fn) (t : Table Fn) : Registers c t [] ⟨.ok, t, [], 0⟩ where
  returns _ := nofun
  ok_iff := ⟨fun _ => ⟨fits_nil, Nat.zero_le _, nofun⟩, fun _ => rfl⟩
  installed _ := ⟨.nil, List.nodup_nil, nofun, fun _ _ => rfl⟩
  assigned _ := rfl
  numregistered _ := rfl
  failed h := absurd rfl h

/-- A call that fails at once. -/
theorem registers_err {code : Code} {reason : String} (hpos : 0 < input.length) (hnot : ¬Acceptable c t input) :
    Registers c t input ⟨.err code reason, t, input, 0⟩ where
  returns _ := nofun
  ok_iff := ⟨nofun, fun h => absurd h hnot⟩
  installed := nofun
  assigned := nofun
  numregistered := nofun
  failed _ := ⟨0, [], hpos, .nil, List.nodup_nil, nofun, fun _ _ => rfl⟩

/-- A first pass that stops. -/
theorem FixedPass.not_acceptable {r : Pass Fn} {done left : List (Entry Fn)}
    (h : FixedPass c t GASNETI_CLIENT_HANDLER_BASE GASNETC_MAX_NUMHANDLERS input r done left)
    (hleft : left ≠ []) : ¬Acceptable c t input := by
  rintro hacc
  rcases h.ends with ⟨-, hnil⟩ | ⟨-, e, es, rfl, hnot⟩
  · exact hleft hnil
  · have hfits := hacc.fits
    have hsplit := h.split
    have he : e ∈ fixed input := by
      rw [hsplit]
      exact List.mem_append_right _ List.mem_cons_self
    rw [hsplit, List.append_cons] at hfits
    exact hnot ⟨((Fits.append low_pos).mp hfits).1, hacc.accepts e (List.mem_filter.mp he).1⟩

theorem FixedPass.done_eq {r : Pass Fn} {done : List (Entry Fn)}
    (h : FixedPass c t low high input r done []) : done = fixed input := by
  rw [h.split, List.append_nil]

theorem registers_fixed {r : Pass Fn} {done left : List (Entry Fn)} {code : Code} {reason : String}
    (h : FixedPass c t GASNETI_CLIENT_HANDLER_BASE GASNETC_MAX_NUMHANDLERS input r done left)
    (hleft : left ≠ []) : Registers c t input { r with rc := .err code reason } where
  returns _ := nofun
  ok_iff := ⟨nofun, fun hacc => absurd hacc (h.not_acceptable hleft)⟩
  installed := nofun
  assigned := nofun
  numregistered := nofun
  failed _ := by
    have hlen := length_fixed_zeros input
    have hpos := List.length_pos_of_ne_nil hleft
    rw [h.split, List.length_append] at hlen
    refine ⟨done.length, done, by omega, ?_, ?_⟩
    · rw [h.split, List.append_assoc, List.take_left]
      exact forall₂_renumbered_refl done
    · change Installed t r.output done
      rw [h.output]
      exact h.fits.installed

theorem zeros_index (he : e ∈ zeros input) : e.gex_index = 0 := of_decide_eq_true (List.mem_filter.mp he).2

/-- What the second pass installs fits beside what the first has installed. -/
theorem installed_both (hfits : Fits t GASNETI_CLIENT_HANDLER_BASE GASNETC_MAX_NUMHANDLERS (fixed input))
    (done : List (Entry Fn)) :
    let slots := freeSlots (install t (fixed input)) GASNETI_CLIENT_HANDLER_BASE GASNETC_MAX_NUMHANDLERS
    Installed t (install (install t (fixed input)) (numbered done slots))
      (fixed input ++ numbered done slots) := by
  intro slots
  rw [← install_append]
  exact ((Fits.append low_pos).mpr ⟨hfits, fits_numbered done _⟩).installed

section Second

variable {r : Pass Fn} {done left : List (Entry Fn)}
  (hfits : Fits t GASNETI_CLIENT_HANDLER_BASE GASNETC_MAX_NUMHANDLERS (fixed input))
  (hacc : ∀ e ∈ fixed input, c.accepts e.gex_fnptr)
  (h : ZeroPass c (install t (fixed input)) GASNETI_CLIENT_HANDLER_BASE GASNETC_MAX_NUMHANDLERS input r
    done left)
include hfits h

theorem registers_zeros_err {code : Code} {reason : String} (hleft : left ≠ []) :
    Registers c t input { r with rc := .err code reason } where
  returns _ := nofun
  ok_iff := by
    refine ⟨nofun, fun hok => ?_⟩
    have henough := hok.enough
    rw [spare, ← freeSlots_install hfits low_pos] at henough
    rcases h.ends with ⟨-, hnil⟩ | ⟨-, e, es, rfl, hfull | hrefused⟩
    · exact absurd hnil hleft
    · rw [h.split, List.length_append, List.length_cons] at henough
      omega
    · have he : e ∈ zeros input := by
        rw [h.split]
        exact List.mem_append_right _ List.mem_cons_self
      exact absurd (hok.accepts e (List.mem_filter.mp he).1) hrefused
  installed := nofun
  assigned := nofun
  numregistered := nofun
  failed _ := by
    have hlen := length_fixed_zeros input
    have hpos := List.length_pos_of_ne_nil hleft
    have hsplit := h.split
    have hzeros : (zeros input).length = done.length + left.length := by rw [hsplit, List.length_append]
    refine ⟨(fixed input).length + done.length, fixed input ++
      numbered done (freeSlots (install t (fixed input)) GASNETI_CLIENT_HANDLER_BASE GASNETC_MAX_NUMHANDLERS),
      by omega, ?_, ?_⟩
    · rw [List.take_length_add_append, hsplit, List.take_left]
      refine List.rel_append (forall₂_renumbered_refl _) (renumbered_numbered ?_ h.length_le)
      intro e he
      have hmem : e ∈ zeros input := by rw [hsplit]; exact List.mem_append_left _ he
      exact zeros_index hmem
    · change Installed t r.output _
      rw [h.output]
      exact installed_both hfits done

include hacc in
theorem registers_zeros_ok (hleft : left = []) :
    Registers c t input { r with rc := .ok, numregistered := (fixed input).length + r.numregistered } where
  returns _ := nofun
  ok_iff := by
    refine ⟨fun _ => ⟨hfits, ?_, ?_⟩, fun _ => rfl⟩
    · rw [spare, ← freeSlots_install hfits low_pos, h.split, hleft, List.append_nil]
      exact h.length_le
    · intro e he
      rcases mem_fixed_or_zeros he with he | he
      · exact hacc e he
      · rw [h.split, hleft, List.append_nil] at he
        exact h.accepts e he
  installed _ := by
    have hlen := h.length_le
    have hdone : zeros input = done := by rw [h.split, hleft, List.append_nil]
    rw [← hdone] at hlen
    have hboth := (installed_both hfits (zeros input)).perm (assign_perm hlen).symm
    change List.Forall₂ Renumbered input r.input ∧ Installed t r.output r.input
    rw [h.input hleft, h.output, ← hdone]
    exact ⟨assign_renumbered hlen, hboth⟩
  assigned _ := h.input hleft
  numregistered _ := by
    have hlen := length_fixed_zeros input
    have hdone : zeros input = done := by rw [h.split, hleft, List.append_nil]
    change (fixed input).length + r.numregistered = input.length
    rw [h.numregistered, ← hdone, hlen]
  failed hrc := absurd rfl hrc

end Second

theorem Ends.err {rc : Rc} {left : List (Entry Fn)} {p : Entry Fn → Prop} (h : Ends rc left p) :
    rc = .ok ∧ left = [] ∨ (∃ code reason, rc = .err code reason) ∧ left ≠ [] := by
  rcases h with h | ⟨herr, e, es, rfl, -⟩
  · exact .inl h
  · exact .inr ⟨herr, nofun⟩

theorem amregister_client (hvalid : gasneti_am_validate c input = none) (t : Table Fn) :
    Registers c t input (gasneti_amregister_client c input t) := by
  by_cases hpos : input.length = 0
  · obtain rfl := List.length_eq_zero_iff.mp hpos
    exact registers_nil c t
  · rw [gasneti_amregister_client, if_neg hpos]
    by_cases hlen : GASNETC_MAX_NUMHANDLERS - GASNETI_CLIENT_HANDLER_BASE < input.length
    · rw [if_pos hlen]
      exact registers_err (Nat.pos_of_ne_zero hpos) fun h => absurd h.length_le (Nat.not_le.mpr hlen)
    · rw [if_neg hlen]
      have hpass : ∀ dontcare (u : Table Fn),
          gasneti_amregister c GASNETI_CLIENT_HANDLER_BASE GASNETC_MAX_NUMHANDLERS dontcare input u =
            registerLoop c GASNETI_CLIENT_HANDLER_BASE GASNETC_MAX_NUMHANDLERS dontcare input u :=
        fun _ _ => by rw [gasneti_amregister, hvalid]
      obtain ⟨done, left, h1⟩ := registerLoop_fixed c low_pos GASNETC_MAX_NUMHANDLERS input t
      dsimp only
      rw [hpass]
      rcases h1.ends.err with ⟨hrc, rfl⟩ | ⟨⟨code, reason, hrc⟩, hleft⟩
      · have hdone := h1.done_eq
        have hfits := h1.fits
        have hacc := h1.accepts
        have hnum := h1.numregistered
        rw [hdone] at hfits hacc hnum
        rw [hrc, h1.input, h1.output, hdone, hpass]
        obtain ⟨done', left', h2⟩ :=
          registerLoop_zeros c low_pos GASNETC_MAX_NUMHANDLERS input (install t (fixed input))
        dsimp only
        rcases h2.ends.err with ⟨hrc', hleft'⟩ | ⟨⟨code, reason, hrc'⟩, hleft'⟩
        · rw [hrc', hnum]
          exact registers_zeros_ok hfits hacc h2 hleft'
        · rw [hrc']
          exact registers_zeros_err hfits h2 hleft'
      · rw [hrc]
        exact registers_fixed h1 hleft

/-! ### Calls in sequence -/

/-- A slot is free or has its own index. -/
def Marked (t : Table Fn) : Prop := ∀ i, ¬Free t i → (t i).gex_index = i

theorem marked_init (f : Fn) : Marked (gasneti_amtbl_init f) := fun _ h => absurd rfl h

theorem Installed.marked {t' : Table Fn} (h : Installed t t' es) (ht : Marked t) : Marked t' := by
  intro i hi
  by_cases hmem : i ∈ es.map Entry.gex_index
  · obtain ⟨e, he, rfl⟩ := List.mem_map.mp hmem
    rw [(h.slot e he).2.2]
  · rw [Free, h.others i hmem] at hi
    rw [h.others i hmem]
    exact ht i hi

theorem Registers.marked {r : Pass Fn} (h : Registers c t input r) (ht : Marked t) : Marked r.output := by
  by_cases hrc : r.rc = .ok
  · exact (h.installed hrc).2.marked ht
  · obtain ⟨_, _, _, _, hinst⟩ := h.failed hrc
    exact hinst.marked ht

/-- A call with a table that is not fatal. -/
def Registration (c : Conduit Fn) (t : Table Fn) (input : List (Entry Fn)) (t' : Table Fn) : Prop :=
  gasneti_am_validate c input = none ∧ t' = (gasneti_amregister_client c input t).output

theorem marked_reachable {t0 : Table Fn} (h0 : Marked t0) (h : Reachable (Registration c) t0 t) : Marked t := by
  apply h.invariant (P := Marked) _ h0
  rintro t input t' ⟨hvalid, rfl⟩ ht
  exact (amregister_client hvalid t).marked ht

/-- The slots that the entries without an index got. -/
def written (input : List (Entry Fn)) (r : Pass Fn) : List (Fin 256) :=
  (input.zip r.input).filterMap fun p => if p.1.gex_index = 0 then some p.2.gex_index else none

/-- The table and the slots written back, where all calls succeed. -/
def registerAll (c : Conduit Fn) : List (List (Entry Fn)) → Table Fn → Option (Table Fn × List (List (Fin 256)))
  | [], t => some (t, [])
  | input :: calls, t =>
    let r := gasneti_amregister_client c input t
    if r.rc = .ok then (registerAll c calls r.output).map fun p => (p.1, written input r :: p.2) else none

/-- Two tables whose fixed entries are the same in some order, and whose other entries are in the same
order. -/
structure Same (c : Conduit Fn) (input input' : List (Entry Fn)) : Prop where
  valid : gasneti_am_validate c input = none
  valid' : gasneti_am_validate c input' = none
  fixed : (fixed input).Perm (fixed input')
  zeros : zeros input = zeros input'

theorem Same.symm {input' : List (Entry Fn)} (h : Same c input input') : Same c input' input :=
  ⟨h.valid', h.valid, h.fixed.symm, h.zeros.symm⟩

theorem Same.acceptable {input' : List (Entry Fn)} (h : Same c input input') (hacc : Acceptable c t input) :
    Acceptable c t input' where
  fits := hacc.fits.perm h.fixed
  enough := by
    have hspare : spare t input' = spare t input := by
      apply List.filter_congr
      intro i _
      rw [Bool.eq_iff_iff, decide_eq_true_iff, decide_eq_true_iff, (h.fixed.map Entry.gex_index).mem_iff]
    rw [hspare, ← h.zeros]
    exact hacc.enough
  accepts e he := by
    rcases mem_fixed_or_zeros he with he | he
    · exact hacc.accepts e (List.mem_filter.mp (h.fixed.symm.subset he)).1
    · rw [← h.zeros] at he
      exact hacc.accepts e (List.mem_filter.mp he).1

theorem written_assign {slots : List (Fin 256)} {r : Pass Fn} (hr : r.input = assign input slots)
    (hlen : (zeros input).length ≤ slots.length) : written input r = slots.take (zeros input).length := by
  rw [written, hr]
  clear hr
  induction input generalizing slots with
  | nil => rfl
  | cons e input ih =>
    by_cases he : e.gex_index = 0
    · have hzeros : zeros (e :: input) = e :: zeros input := List.filter_cons_of_pos (by simp [he])
      rw [hzeros] at hlen ⊢
      cases slots with
      | nil => exact absurd hlen (by simp)
      | cons i slots =>
        have hrest := ih (Nat.le_of_succ_le_succ hlen)
        rw [assign, if_neg (not_not.mpr he), List.zip_cons_cons, List.filterMap_cons, hrest]
        simp [he]
    · have hzeros : zeros (e :: input) = zeros input := List.filter_cons_of_neg (by simp [he])
      rw [hzeros] at hlen ⊢
      rw [assign_fixed he, List.zip_cons_cons, List.filterMap_cons, ih hlen]
      simp [he]

/-- The table is as the installed entries make it. -/
theorem Installed.eq_install {t' : Table Fn} (h : Installed t t' es) : t' = install t es := by
  funext i
  by_cases hi : i ∈ es.map Entry.gex_index
  · obtain ⟨e, he, rfl⟩ := List.mem_map.mp hi
    rw [(h.slot e he).2.2, install_of_mem h.nodup he]
  · rw [h.others i hi, install_of_not_mem hi]

/-- What a call that succeeds does, said by its fixed entries and its others. -/
theorem Registers.of_ok {r : Pass Fn} (h : Registers c t input r) (hrc : r.rc = .ok) :
    let slots := freeSlots (install t (fixed input)) GASNETI_CLIENT_HANDLER_BASE GASNETC_MAX_NUMHANDLERS
    r.output = install t (fixed input ++ numbered (zeros input) slots) ∧
      written input r = slots.take (zeros input).length := by
  intro slots
  obtain ⟨-, hinst⟩ := h.installed hrc
  have hacc := h.ok_iff.mp hrc
  have hlen : (zeros input).length ≤ slots.length := by
    have henough := hacc.enough
    rwa [spare, ← freeSlots_install hacc.fits low_pos] at henough
  refine ⟨?_, written_assign (h.assigned hrc) hlen⟩
  rw [hinst.eq_install, install_perm _ hinst.nodup]
  rw [h.assigned hrc]
  exact assign_perm hlen

theorem Same.output {input' : List (Entry Fn)} (h : Same c input input')
    (hrc : (gasneti_amregister_client c input t).rc = .ok) :
    (gasneti_amregister_client c input' t).rc = .ok ∧
      (gasneti_amregister_client c input' t).output = (gasneti_amregister_client c input t).output ∧
      written input' (gasneti_amregister_client c input' t) =
        written input (gasneti_amregister_client c input t) := by
  have hreg := amregister_client h.valid t
  have hreg' := amregister_client h.valid' t
  have hacc := hreg.ok_iff.mp hrc
  have hrc' := hreg'.ok_iff.mpr (h.acceptable hacc)
  obtain ⟨hout, hwritten⟩ := hreg.of_ok hrc
  obtain ⟨hout', hwritten'⟩ := hreg'.of_ok hrc'
  have hfixed : install t (AmRegister.fixed input') = install t (AmRegister.fixed input) :=
    (install_perm h.fixed hacc.fits.nodup).symm
  rw [install_append] at hout hout'
  rw [hfixed, ← h.zeros] at hout' hwritten'
  exact ⟨hrc', hout'.trans hout.symm, hwritten'.trans hwritten.symm⟩

/-- The ranks that make the same calls agree on every index. -/
theorem Same.registerAll {calls calls' : List (List (Entry Fn))} (h : List.Forall₂ (Same c) calls calls')
    (t : Table Fn) : registerAll c calls t = registerAll c calls' t := by
  induction h generalizing t with
  | nil => rfl
  | @cons input input' calls calls' hsame _ ih =>
    rw [AmRegister.registerAll, AmRegister.registerAll]
    by_cases hrc : (gasneti_amregister_client c input t).rc = .ok
    · obtain ⟨hrc', hout, hwritten⟩ := hsame.output hrc
      rw [if_pos hrc, if_pos hrc', hout, hwritten, ih]
    · rw [if_neg hrc, if_neg]
      intro hrc'
      exact hrc (hsame.symm.output hrc').1

/-- The tables that are made of legacy ones pass. -/
theorem validate_ofLegacy (c : Conduit Fn) (table : List (Fin 256 × Fn)) :
    gasneti_am_validate c (table.map ofLegacy) = none := by
  cases table with
  | nil => rfl
  | cons h table =>
    rw [List.map_cons, gasneti_am_validate, if_pos (.inl rfl), if_pos]
    rw [List.all_eq_true]
    intro e he
    rw [← List.map_cons] at he
    obtain ⟨h, -, rfl⟩ := List.mem_map.mp he
    simp [isLegacy, ofLegacy]

/-- A legacy call is a client call, whose slots are copied back where it succeeds. -/
theorem amregister_legacy (c : Conduit Fn) (table : List (Fin 256 × Fn)) (t : Table Fn) :
    let r := gasneti_amregister_client c (table.map ofLegacy) t
    let l := gasneti_amregister_legacy c table t
    (l.1 = .ok ↔ r.rc = .ok) ∧ l.2.1 = r.output ∧
      (r.rc = .ok → l.2.2 = r.input.map fun e => (e.gex_index, e.gex_fnptr)) ∧
      (r.rc ≠ .ok → l.2.2 = table) := by
  dsimp only
  rw [gasneti_amregister_legacy]
  rcases hrc : (gasneti_amregister_client c (table.map ofLegacy) t).rc with _ | ⟨code, reason⟩ | message
  · simp
  · cases code <;> simp
  · simp

/-- After any registrations: what a call does, that the ranks agree, and that a legacy call is one of these. -/
theorem amregister_calls {t0 : Table Fn} (h0 : Marked t0) (h : Reachable (Registration c) t0 t) :
    (∀ input, gasneti_am_validate c input = none →
      Registers c t input (gasneti_amregister_client c input t) ∧
        Marked (gasneti_amregister_client c input t).output) ∧
    (∀ calls calls', List.Forall₂ (Same c) calls calls' → registerAll c calls t = registerAll c calls' t) ∧
    ∀ table,
      let r := gasneti_amregister_client c (table.map ofLegacy) t
      let l := gasneti_amregister_legacy c table t
      Registers c t (table.map ofLegacy) r ∧ (l.1 = .ok ↔ r.rc = .ok) ∧ l.2.1 = r.output ∧
        (r.rc = .ok → l.2.2 = r.input.map fun e => (e.gex_index, e.gex_fnptr)) ∧
        (r.rc ≠ .ok → l.2.2 = table) := by
  have hmarked := marked_reachable h0 h
  refine ⟨?_, ?_, ?_⟩
  · intro input hvalid
    have hreg := amregister_client hvalid t
    exact ⟨hreg, hreg.marked hmarked⟩
  · intro calls calls' hsame
    exact Same.registerAll hsame t
  · intro table
    exact ⟨amregister_client (validate_ofLegacy c table) t, amregister_legacy c table t⟩

section Examples

/-- A request handler with two arguments. -/
def entry (index : Fin 256) (fn : Nat) : Entry Nat := ⟨index, fn, 25, 2, 0, none⟩

def smp : Conduit Nat := ⟨16, fun _ => true⟩

theorem amregister_calls_example :
    Registers smp (gasneti_amregister_client smp [entry 0 1, entry 255 2] (gasneti_amtbl_init 0)).output
      [entry 200 3, entry 0 4] (gasneti_amregister_client smp [entry 200 3, entry 0 4]
        (gasneti_amregister_client smp [entry 0 1, entry 255 2] (gasneti_amtbl_init 0)).output) := by
  have hstep : Registration smp (gasneti_amtbl_init 0) [entry 0 1, entry 255 2]
      (gasneti_amregister_client smp [entry 0 1, entry 255 2] (gasneti_amtbl_init 0)).output :=
    ⟨by decide, rfl⟩
  have hreach := Reachable.refl.snoc hstep
  exact ((amregister_calls (marked_init 0) hreach).1 [entry 200 3, entry 0 4] (by decide)).1

/-- The second of two entries for slot 130 is refused, and the first stays. -/
theorem failing_call_installs :
    ¬∀ (input : List (Entry Nat)) (t : Table Nat), gasneti_am_validate smp input = none →
      (gasneti_amregister_client smp input t).rc ≠ .ok → (gasneti_amregister_client smp input t).output = t := by
  intro h
  have hout := h [entry 130 1, entry 130 2] (gasneti_amtbl_init 0) (by decide) (by decide)
  have hindex := congrArg (fun t : Table Nat => (t 130).gex_index) hout
  exact absurd hindex (by decide)

end Examples

end Gasnet.AmRegister
