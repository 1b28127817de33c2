import Mathlib.Logic.Function.Basic
import Gasnet.Foundation.Run
import Gasnet.Foundation.SwapRemove

/-! Endpoints and bundles, in AMUDP and in AMMPI: the two keep them in the same way. -/
namespace Gasnet.Bundles

/-- Addresses of bundles and of endpoints. -/
abbrev Eb := Nat

abbrev Ep := Nat

inductive Error
  | NOT_INIT
  | BAD_ARG
  | RESOURCE
  deriving DecidableEq, Repr

/-- What a call comes to; `fatal` is a failed assertion. -/
inductive Rc
  | ok
  | err (e : Error)
  | fatal
  deriving DecidableEq, Repr

/-- The list of a bundle, `n_endpoints` long, in an array of `cursize`. -/
structure Bundle where
  endpoints : List Ep
  cursize : Nat
  deriving DecidableEq, Repr

structure Endpoint where
  eb : Option Eb
  deriving DecidableEq, Repr

/-- What is given back to the allocator. -/
inductive Freed
  | bundle (b : Eb)
  | endpoint (e : Ep)
  deriving DecidableEq, Repr

/-- `bundles` is `AMUDP_bundles` up to `AMUDP_numBundles`; `eb` and `ep` are the live objects, and `freed`
records what has been freed, in order. -/
structure State where
  amx_Initialized : Nat
  bundles : List Eb
  eb : Eb → Option Bundle
  ep : Ep → Option Endpoint
  freed : List Freed
  aborted : Bool

def MAX_BUNDLES : Nat := 255
def INITIAL_NUMENDPOINTS : Nat := 1
def AM_SEQ : Int := 0
def AM_NUM_BUNDLE_MODES : Int := 2

def initial : State := ⟨0, [], fun _ => none, fun _ => none, [], false⟩

/-- The list of a bundle. -/
def State.endpoints (s : State) (b : Eb) : List Ep :=
  match s.eb b with
  | none => []
  | some bundle => bundle.endpoints

def setEb (ep : Ep → Option Endpoint) (e : Ep) (eb : Option Eb) : Ep → Option Endpoint :=
  Function.update ep e ((ep e).map fun p => { p with eb := eb })

/-- `AMUDP_InsertEndpoint`. -/
def InsertEndpoint (b : Eb) (e : Ep) (s : State) : State :=
  match s.eb b with
  | none => s
  | some bundle =>
    let cursize := if bundle.endpoints.length = bundle.cursize then bundle.cursize * 2 else bundle.cursize
    { s with
      eb := Function.update s.eb b (some ⟨bundle.endpoints ++ [e], cursize⟩)
      ep := setEb s.ep e (some b) }

/-- `AMUDP_RemoveEndpoint`. -/
def RemoveEndpoint (b : Eb) (e : Ep) (s : State) : State :=
  match s.eb b with
  | none => s
  | some bundle =>
    { s with
      eb := Function.update s.eb b (some { bundle with endpoints := swapRemove e bundle.endpoints })
      ep := setEb s.ep e none }

/-- `AMX_free(ea)`. -/
def State.freeEp (s : State) (e : Ep) : State :=
  { s with ep := Function.update s.ep e none, freed := s.freed ++ [.endpoint e] }

def State.freeEb (s : State) (b : Eb) : State :=
  { s with eb := Function.update s.eb b none, freed := s.freed ++ [.bundle b] }

/-- `release e`: the resources and the buffers of the endpoint could be given back. -/
def AM_FreeEndpoint (release : Ep → Bool) (ea : Option Ep) (s : State) : Rc × State :=
  if s.amx_Initialized = 0 then (.err .NOT_INIT, s)
  else match ea with
  | none => (.err .BAD_ARG, s)
  | some e =>
    match (s.ep e).bind Endpoint.eb with
    | none => (.err .RESOURCE, s)
    | some b =>
      if e ∉ s.endpoints b then (.err .RESOURCE, s)
      else (if release e then .ok else .err .RESOURCE, (RemoveEndpoint b e s).freeEp e)

/-- The loop of `AM_FreeBundle` from index `i`: the bound is read again each time. Each turn raises the index
and the bound never rises, so that `fuel` need not be more than the bound at the start. -/
def freeEndpoints (release : Ep → Bool) (b : Eb) : Nat → Nat → State → Rc × State
  | 0, _, s => (.ok, s)
  | fuel + 1, i, s =>
    match (s.endpoints b)[i]? with
    | none => (.ok, s)
    | some e =>
      match AM_FreeEndpoint release (some e) s with
      | (.ok, s') => freeEndpoints release b fuel (i + 1) s'
      | r => r

/-- The hole is filled with the last bundle, and the number of bundles goes down. -/
def removeBundle (b : Eb) (bundles : List Eb) : List Eb :=
  if b ∈ bundles then swapRemove b bundles else bundles.dropLast

/-- `debug`: assertions are checked. -/
def AM_FreeBundle (debug : Bool) (release : Ep → Bool) (bundle : Option Eb) (s : State) : Rc × State :=
  match bundle with
  | none => (.err .BAD_ARG, s)
  | some b =>
    match freeEndpoints release b (s.endpoints b).length 0 s with
    | (.ok, s') =>
      if debug ∧ s'.endpoints b ≠ [] then (.fatal, { s' with aborted := true })
      else if debug ∧ b ∉ s'.bundles then (.fatal, { s' with aborted := true })
      else (.ok, { s' with bundles := removeBundle b s'.bundles }.freeEb b)
    | r => r

/-- The loop of `AM_Terminate` from index `i`; each turn raises the index and the number of bundles never
rises. -/
def freeBundles (debug : Bool) (release : Ep → Bool) : Nat → Nat → Rc → State → Rc × State
  | 0, _, retval, s => (retval, s)
  | fuel + 1, i, retval, s =>
    match s.bundles[i]? with
    | none => (retval, s)
    | some b =>
      match AM_FreeBundle debug release (some b) s with
      | (.ok, s') => freeBundles debug release fuel (i + 1) retval s'
      | (.err _, s') => freeBundles debug release fuel (i + 1) (.err .RESOURCE) s'
      | (.fatal, s') => (.fatal, s')

/-- `detached`: AMMPI could detach its buffer, which it tries in the last call. -/
def AM_Terminate (debug : Bool) (release : Ep → Bool) (detached : Bool) (s : State) : Rc × State :=
  if s.amx_Initialized = 1 then
    match freeBundles debug release s.bundles.length 0 .ok s with
    | (.fatal, s') => (.fatal, s')
    | (retval, s') =>
      (if detached then retval else .err .RESOURCE, { s' with bundles := [], amx_Initialized := 0 })
  else (.ok, { s with amx_Initialized := s.amx_Initialized - 1 })

/-- `endb` is not null, and the new bundle gets the address `b`. -/
def AM_AllocateBundle (type : Int) (endb : Bool) (b : Eb) (s : State) : Rc × State :=
  if s.amx_Initialized = 0 then (.err .NOT_INIT, s)
  else if type < 0 ∨ AM_NUM_BUNDLE_MODES ≤ type then (.err .BAD_ARG, s)
  else if type ≠ AM_SEQ then (.err .RESOURCE, s)
  else if s.bundles.length = MAX_BUNDLES - 1 then (.err .RESOURCE, s)
  else if ¬ endb then (.err .BAD_ARG, s)
  else (.ok, { s with
    eb := Function.update s.eb b (some ⟨[], INITIAL_NUMENDPOINTS⟩)
    bundles := s.bundles ++ [b] })

/-- The endpoint gets the address `e`; `resource` is what `AMUDP_AllocateEndpointResource` comes to, and
`endp` says that the pointers for the results are not null. -/
def AM_AllocateEndpoint (resource : Bool) (bundle : Option Eb) (endp : Bool) (e : Ep) (s : State) : Rc × State :=
  if s.amx_Initialized = 0 then (.err .NOT_INIT, s)
  else match bundle with
  | none => (.err .BAD_ARG, s)
  | some b =>
    if ¬ endp then (.err .BAD_ARG, s)
    else if ¬ resource then (.err .RESOURCE, s)
    else (.ok, InsertEndpoint b e { s with ep := Function.update s.ep e (some ⟨none⟩) })

def AM_MoveEndpoint (ea : Option Ep) (from_bundle to_bundle : Option Eb) (s : State) : Rc × State :=
  if s.amx_Initialized = 0 then (.err .NOT_INIT, s)
  else match ea, from_bundle, to_bundle with
  | some e, some b, some b' =>
    if e ∉ s.endpoints b then (.err .RESOURCE, s)
    else (.ok, InsertEndpoint b' e (RemoveEndpoint b e s))
  | _, _, _ => (.err .BAD_ARG, s)

/-- A call, with what its environment answers. -/
inductive Call
  | init
  | terminate (release : Ep → Bool) (detached : Bool)
  | allocateBundle (type : Int) (endb : Bool) (b : Eb)
  | freeBundle (release : Ep → Bool) (bundle : Option Eb)
  | allocateEndpoint (resource : Bool) (bundle : Option Eb) (endp : Bool) (e : Ep)
  | freeEndpoint (release : Ep → Bool) (ea : Option Ep)
  | moveEndpoint (ea : Option Ep) (from_bundle to_bundle : Option Eb)

def run (debug : Bool) (s : State) : Call → Rc × State
  | .init => (.ok, { s with amx_Initialized := s.amx_Initialized + 1 })
  | .terminate release detached => AM_Terminate debug release detached s
  | .allocateBundle type endb b => AM_AllocateBundle type endb b s
  | .freeBundle release bundle => AM_FreeBundle debug release bundle s
  | .allocateEndpoint resource bundle endp e => AM_AllocateEndpoint resource bundle endp e s
  | .freeEndpoint release ea => AM_FreeEndpoint release ea s
  | .moveEndpoint ea from_bundle to_bundle => AM_MoveEndpoint ea from_bundle to_bundle s

/-- Pointers are null or to live objects, and a new object is not at the address of a live one. -/
def Proper (s : State) : Call → Prop
  | .init | .terminate _ _ => True
  | .allocateBundle _ _ b => s.eb b = none
  | .freeBundle _ bundle => ∀ b ∈ bundle, s.eb b ≠ none
  | .allocateEndpoint _ bundle _ e => (∀ b ∈ bundle, s.eb b ≠ none) ∧ s.ep e = none
  | .freeEndpoint _ ea => ∀ e ∈ ea, s.ep e ≠ none
  | .moveEndpoint ea from_bundle to_bundle =>
    (∀ e ∈ ea, s.ep e ≠ none) ∧ (∀ b ∈ from_bundle, s.eb b ≠ none) ∧ ∀ b ∈ to_bundle, s.eb b ≠ none

def Step (debug : Bool) (s : State) (a : Call) (s' : State) : Prop :=
  s.aborted = false ∧ Proper s a ∧ s' = (run debug s a).2

end Gasnet.Bundles
