import Gasnet.Ammpi.Loopback
import Gasnet.Amudp.Loopback

/-! When a message to oneself is delivered as the network would deliver it. -/
namespace Gasnet.Loopback

/-- In both libraries exactly the clear exchanges with oneself go as if they were sent. -/
theorem asSent_iff_clear (i : Nat) (c : Call) (reply : Option Call) :
    (∀ (e : Ammpi.Loopback.Endpoint) (t : Entry Ammpi.Loopback.Name),
      e.table[i]? = some (some t) → t.name = e.name →
      (Ammpi.Loopback.AsSent e i t c reply ↔ Ammpi.Loopback.ClearExchange e i t c reply)) ∧
    ∀ (N : Type) [DecidableEq N] (e : Amudp.Loopback.Endpoint N) (t : Entry N),
      e.table[i]? = some (some t) → t.name = e.name →
      (Amudp.Loopback.AsSent e i c reply ↔ Amudp.Loopback.ClearExchange e i t c reply) :=
  ⟨fun _ _ h ht => Ammpi.Loopback.asSent_iff h ht reply,
    fun _ _ _ _ h ht => Amudp.Loopback.asSent_iff h ht reply⟩

/-- An AMMPI endpoint in its own table at an index of its own choice, with handler 1 or none. -/
def ammpiEndpoint (holes : Nat) (registered : Bool) : Ammpi.Loopback.Endpoint where
  name := ⟨0, 100⟩
  table := List.replicate holes none ++ [some ⟨⟨0, 100⟩, 5⟩]
  useAmtags := true
  tag := 5
  handler := fun h => registered && h = 1
  segAddr := 0x1000
  segLength := 16

def amudpEndpoint (holes : Nat) (registered : Bool) : Amudp.Loopback.Endpoint Nat where
  name := 7
  table := List.replicate holes none ++ [some ⟨7, 5⟩]
  config :=
    { depth := 1
      depth_pos := Nat.one_pos
      depth_le := Amudp.one_le_depth
      sendDepth := 1
      tag := 5
      registered := fun h => registered && h = 1
      segAddr := 0x1000
      segLength := 16 }

def shortCall : Call := ⟨1, [3], .short⟩

def longCall (destOffset : Word) : Call := ⟨1, [], .long [9] destOffset⟩

/-- Without holes, a short request and its reply and a long request are as if sent. -/
theorem asSent_iff_clear_one :
    Ammpi.Loopback.AsSent (ammpiEndpoint 0 true) 0 ⟨⟨0, 100⟩, 5⟩ shortCall (some shortCall) ∧
    Amudp.Loopback.AsSent (amudpEndpoint 0 true) 0 (longCall 8) none := by
  constructor
  · refine ((asSent_iff_clear _ _ _).1 _ _ rfl rfl).2 fun _ => ⟨?_, fun _ r hr _ p hp => ?_⟩
    · exact ⟨rfl, nofun⟩
    · cases hr
      cases hp
      exact ⟨rfl, nofun⟩
  · refine ((asSent_iff_clear _ _ _).2 _ _ ⟨7, 5⟩ rfl rfl).2 fun _ => ⟨?_, fun _ => nofun⟩
    exact ⟨by decide, rfl, fun _ => by decide⟩

/-- With a hole before it an endpoint is told two ids. Without its handler registered, a long
request is refused and yet changes the segment; one whose end wraps is accepted. -/
theorem asSent_fails :
    ¬ Ammpi.Loopback.AsSent (ammpiEndpoint 1 true) 1 ⟨⟨0, 100⟩, 5⟩ shortCall none ∧
    ¬ Amudp.Loopback.AsSent (amudpEndpoint 1 true) 1 shortCall none ∧
    ¬ Ammpi.Loopback.AsSent (ammpiEndpoint 0 false) 0 ⟨⟨0, 100⟩, 5⟩ (longCall 8) none ∧
    ¬ Amudp.Loopback.AsSent (amudpEndpoint 0 false) 0 (longCall 8) none ∧
    ¬ Amudp.Loopback.AsSent (amudpEndpoint 0 true) 0 (longCall (-1)) none := by
  refine ⟨fun h => ?_, fun h => ?_, fun h => ?_, fun h => ?_, fun h => ?_⟩
  · exact absurd (h.request fun _ => 0).verdict (by decide)
  · exact absurd (h.request 0 0 (by decide) fun _ => 0).verdict (by decide)
  · have hkeep := (h.request fun _ => 0).refused (by decide)
    exact absurd (hkeep (x := 0x1008) (mem_span.2 ⟨8, by decide, by decide⟩)) (by decide)
  · have hkeep := (h.request 0 0 (by decide) fun _ => 0).refused (by decide)
    exact absurd (hkeep (x := 0x1008) (mem_span.2 ⟨8, by decide, by decide⟩)) (by decide)
  · have hexact := (h.request 0 0 (by decide) fun _ => 0).exact
      ⟨_, rfl, trivial, by decide, Amudp.Loopback.takes_of_accepted (by decide)⟩
    exact absurd (hexact.1 trivial) (by decide)

end Gasnet.Loopback
