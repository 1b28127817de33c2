import Gasnet.Foundation.FencedStore
import Gasnet.Pmi.Collectives

/-! A sequence of collectives, cut into chunks that the store can hold. -/
namespace Gasnet.Pmi

/-- How the spawner was built, and the maxima that PMI reports. -/
structure Conf where
  api : Api
  dupKeys : Bool
  keyMax : Nat
  valMax : Nat

namespace Conf

def maxKeyLen (conf : Conf) : Nat := min conf.keyMax (if conf.dupKeys then 24 else 32)

def maxValLen (conf : Conf) : Nat := if conf.api = .pmix then 4096 else min conf.valMax 4096

def maxValBytes (conf : Conf) : Nat := 4 * (conf.maxValLen / 5)

end Conf

inductive Fault
  | aborted
  | overrun
deriving DecidableEq

variable {size : Nat} {conf : Conf} {fuel remain off b n i j k t : Nat}

/-- What can go wrong in a key. Only `do_kvs_key0` writes without `snprintf`. -/
def keyFault (conf : Conf) (stem : Stem) (counter : Nat) (xs : List Nat) : Option Fault :=
  if conf.dupKeys ∧ xs = [] then if conf.maxKeyLen < 2 then some .overrun else none
  else if conf.maxKeyLen ≤ (key conf.dupKeys stem counter xs).length then some .aborted
  else none

/-- What can go wrong in `do_kvs_put`. -/
def valueFault (conf : Conf) (x : Block) : Option Fault :=
  if conf.api = .pmix then none
  else if conf.maxValLen < 5 * ((x.length + 3) / 4) then some .aborted
  else if conf.maxValLen < touched conf.api x then some .overrun
  else none

/-- The value that `do_kvs_put` puts: PMIx takes the bytes as they are. -/
def putValue (conf : Conf) (x : Block) : List Nat :=
  if conf.api = .pmix then x.map BitVec.toNat else encode conf.api x

/-- `do_kvs_get` of `n` bytes. -/
def getValue (conf : Conf) (n : Nat) (v : List Nat) : Option Block :=
  if conf.api = .pmix then if v.length = n then some (v.map (BitVec.ofNat 8)) else none
  else if v.length < conf.maxValLen then decode conf.api n v else none

/-- Whoever puts a key owns it with PMIx; else the keys are common. -/
def storeKey (conf : Conf) (owner : Fin size) (key : List Char) : Option (Fin size) × List Char :=
  (if conf.api = .pmix then some owner else none, key)

/-- The rounds of `while (remain)`, as offsets and sizes. -/
def chunks (b : Nat) : (fuel remain off : Nat) → List (Nat × Nat)
  | 0, _, _ => []
  | fuel + 1, remain, off =>
    if remain = 0 then []
    else (off, min remain b) :: chunks b fuel (remain - min remain b) (off + min remain b)

theorem mem_chunks {x : Nat × Nat} (hb : 0 < b) (h : x ∈ chunks b fuel remain off) :
    0 < x.2 ∧ x.2 ≤ b ∧ off ≤ x.1 ∧ x.1 + x.2 ≤ off + remain := by
  induction fuel generalizing remain off with
  | zero => simp [chunks] at h
  | succ fuel ih =>
    rw [chunks] at h
    split at h
    · simp at h
    · rcases List.mem_cons.1 h with rfl | h
      · have hpos : 0 < min remain b := by omega
        exact ⟨hpos, Nat.min_le_right .., le_rfl, by simp⟩
      · have := ih h
        omega

/-- The chunks leave nothing out. -/
theorem exists_chunk (hb : 0 < b) (hfuel : remain ≤ fuel) (hoff : off ≤ i)
    (hi : i < off + remain) :
    ∃ x ∈ chunks b fuel remain off, x.1 ≤ i ∧ i < x.1 + x.2 := by
  induction fuel generalizing remain off with
  | zero => omega
  | succ fuel ih =>
    rw [chunks, if_neg (by omega)]
    by_cases hlt : i < off + min remain b
    · exact ⟨_, List.mem_cons_self, hoff, hlt⟩
    · obtain ⟨x, hx, hle, hlt⟩ := @ih (remain - min remain b) (off + min remain b)
        (by omega) (by omega) (by omega)
      exact ⟨x, List.mem_cons_of_mem _ hx, hle, hlt⟩

/-- A chunk of a call of a sequence. -/
structure Piece (size : Nat) where
  idx : Nat
  call : Call size
  off : Nat
  n : Nat

namespace Piece

def stem (p : Piece size) : Stem := p.call.pattern.stem

/-- The part of a block that belongs to the chunk. -/
def cut (p : Piece size) (x : Block) : Block := (x.drop p.off).take p.n

end Piece

def pieces (conf : Conf) (calls : List (Call size)) : List (Piece size) :=
  calls.zipIdx.flatMap fun c =>
    (chunks conf.maxValBytes c.1.len c.1.len 0).map fun x => ⟨c.2, c.1, x.1, x.2⟩

/-- The static counters: each collective counts its own chunks, over all its calls. -/
def number (cnt : Stem → Nat) : List (Piece size) → List (Piece size × Nat)
  | [] => []
  | p :: ps => (p, cnt p.stem) :: number (Function.update cnt p.stem (cnt p.stem + 1)) ps

def schedule (conf : Conf) (calls : List (Call size)) : List (Piece size × Nat) :=
  number (fun _ => 0) (pieces conf calls)

theorem map_fst_number (cnt : Stem → Nat) (ps : List (Piece size)) :
    (number cnt ps).map Prod.fst = ps := by
  induction ps generalizing cnt with
  | nil => rfl
  | cons p ps ih => rw [number, List.map_cons, ih]

/-- Two chunks in a row that use one stem have counters in a row. -/
theorem number_succ {cnt : Stem → Nat} {ps : List (Piece size)} {x y : Piece size × Nat}
    (hx : (number cnt ps)[t]? = some x) (hy : (number cnt ps)[t + 1]? = some y)
    (h : x.1.stem = y.1.stem) : y.2 = x.2 + 1 := by
  induction ps generalizing cnt t with
  | nil => simp [number] at hx
  | cons p ps ih =>
    cases t with
    | succ t => exact ih hx hy
    | zero =>
      cases ps with
      | nil => simp [number] at hy
      | cons q ps =>
        simp only [number, List.getElem?_cons_zero, List.getElem?_cons_succ, Option.some.injEq]
          at hx hy
        subst hx hy
        rw [← h, Function.update_self]

theorem mem_pieces {calls : List (Call size)} {p : Piece size} :
    p ∈ pieces conf calls ↔ calls[p.idx]? = some p.call ∧
      (p.off, p.n) ∈ chunks conf.maxValBytes p.call.len p.call.len 0 := by
  unfold pieces
  rw [List.mem_flatMap]
  constructor
  · rintro ⟨⟨c, i⟩, hc, hp⟩
    obtain ⟨x, hx, rfl⟩ := List.mem_map.1 hp
    exact ⟨List.mem_zipIdx_iff_getElem?.1 hc, hx⟩
  · rintro ⟨hc, hx⟩
    exact ⟨(p.call, p.idx), List.mem_zipIdx_iff_getElem?.2 hc, List.mem_map.2 ⟨_, hx, rfl⟩⟩

theorem mem_pieces_of_schedule {calls : List (Call size)} {x : Piece size × Nat}
    (h : x ∈ schedule conf calls) : x.1 ∈ pieces conf calls :=
  map_fst_number (fun _ => 0) (pieces conf calls) ▸ List.mem_map_of_mem h

/-- What a rank puts and gets in each round. -/
def prog (conf : Conf) (calls : List (Call size)) (r : Fin size) (t : Nat) :
    FencedStore.Round (Option (Fin size) × List Char) (List Nat) :=
  match (schedule conf calls)[t]? with
  | none => ⟨[], []⟩
  | some (p, k) =>
    { puts := (p.call.pattern.puts r).map fun x =>
        (storeKey conf r (key conf.dupKeys p.stem k x.1), putValue conf (p.cut x.2))
      gets := (p.call.pattern.gets r).map fun g =>
        storeKey conf g.src (key conf.dupKeys p.stem k g.xs) }

/-- The gets of a rank in its first `n` rounds, with the round, the chunk and its counter. -/
def reads (conf : Conf) (calls : List (Call size)) (r : Fin size) (n : Nat) :
    List (Nat × (Piece size × Nat) × Get size) :=
  (List.range n).flatMap fun t =>
    match (schedule conf calls)[t]? with
    | none => []
    | some x => (x.1.call.pattern.gets r).map fun g => (t, x, g)

/-- A copy of bytes into a buffer. -/
def splice (mem : Nat → Byte) (pos : Nat) (x : Block) : Nat → Byte :=
  fun a => if pos ≤ a ∧ a < pos + x.length then x.getD (a - pos) 0 else mem a

/-- What the gets of one call store, if all of them can be decoded. -/
def received (conf : Conf) (calls : List (Call size)) (j : Nat) (r : Fin size) (n : Nat)
    (log : List (Option (List Nat))) : Option (List (Nat × Block)) :=
  (((reads conf calls r n).zip log).filter fun x => x.1.2.1.1.idx = j).mapM fun x =>
    (x.2.bind (getValue conf x.1.2.1.1.n)).map fun v =>
      (x.1.2.2.block * x.1.2.1.1.call.len + x.1.2.1.1.off, v)

/-- The destination of call `j`, after `n` rounds in which a rank got `log`. -/
def destination (conf : Conf) (calls : List (Call size)) (j : Nat) (c : Call size) (r : Fin size)
    (n : Nat) (log : List (Option (List Nat))) (mem : Nat → Byte) : Option (Nat → Byte) :=
  (received conf calls j r n log).map fun ws =>
    (ws ++ (c.pattern.own r).map fun x => (x.1 * c.len, x.2)).foldl
      (fun mem w => splice mem w.1 w.2) mem

end Gasnet.Pmi

/-! Runs of the collectives over a store with a fence: when each rank ends with the right data. -/
namespace Gasnet.Pmi
open FencedStore

variable {size : Nat} {conf : Conf} {calls : List (Call size)} {r q : Fin size} {n t j k : Nat}
  {p : Piece size} {g : Get size} {x : List Nat × Block}

theorem prog_of_some (h : (schedule conf calls)[t]? = some (p, k)) (r : Fin size) :
    prog conf calls r t =
      { puts := (p.call.pattern.puts r).map fun x =>
          (storeKey conf r (key conf.dupKeys p.stem k x.1), putValue conf (p.cut x.2))
        gets := (p.call.pattern.gets r).map fun g =>
          storeKey conf g.src (key conf.dupKeys p.stem k g.xs) } := by
  rw [prog, h]

theorem prog_of_none (h : (schedule conf calls)[t]? = none) (r : Fin size) :
    prog conf calls r t = ⟨[], []⟩ := by
  rw [prog, h]

/-- What a get asks for is put in the same round. -/
theorem put_of_get (h : (schedule conf calls)[t]? = some (p, k)) (hg : g ∈ p.call.pattern.gets r) :
    (storeKey conf g.src (key conf.dupKeys p.stem k g.xs),
      putValue conf (p.cut (p.call.want r g.block))) ∈ (prog conf calls g.src t).puts := by
  rw [prog_of_some h]
  exact List.mem_map.2 ⟨_, p.call.serves.put r g hg, rfl⟩

/-- Whatever is put under its key in that round is what it wants. -/
theorem put_unique (h : (schedule conf calls)[t]? = some (p, k)) (hg : g ∈ p.call.pattern.gets r)
    {v : List Nat} (hv : (storeKey conf g.src (key conf.dupKeys p.stem k g.xs), v) ∈
      (prog conf calls q t).puts) : v = putValue conf (p.cut (p.call.want r g.block)) := by
  rw [prog_of_some h, List.mem_map] at hv
  obtain ⟨x, hx, he⟩ := hv
  obtain ⟨hk, rfl⟩ := Prod.mk.inj he
  have hkey := (Prod.mk.inj hk).2
  have harity := p.call.serves.arity
  have hxs := (key_inj (fun _ => ((harity q).1 x hx).trans ((harity r).2 g hg).symm) hkey).2
  rw [(p.call.serves.unique r g hg q x hx hxs).2]

/-- The next round puts under other keys. -/
theorem put_spaced (h : (schedule conf calls)[t]? = some (p, k)) (hg : g ∈ p.call.pattern.gets r)
    (q : Fin size) (v : List Nat) :
    (storeKey conf g.src (key conf.dupKeys p.stem k g.xs), v) ∉ (prog conf calls q (t + 1)).puts := by
  intro hv
  cases hnext : (schedule conf calls)[t + 1]? with
  | none =>
    rw [prog_of_none hnext] at hv
    simp at hv
  | some y =>
    obtain ⟨p', k'⟩ := y
    rw [prog_of_some hnext, List.mem_map] at hv
    obtain ⟨x, hx, he⟩ := hv
    have hkey := (Prod.mk.inj (Prod.mk.inj he).1).2
    have hlen : p.stem = p'.stem → x.1.length = g.xs.length := by
      intro hs
      have hxa := (p'.call.serves.arity q).1 x hx
      have hga := (p.call.serves.arity r).2 g hg
      exact hxa.trans ((congrArg Stem.arity hs).symm.trans hga.symm)
    have hs := (key_inj (fun hs => hlen hs.symm) hkey).1
    obtain rfl : k' = k + 1 := number_succ h hnext hs.symm
    rw [hs] at hkey
    exact key_succ_ne (hlen hs.symm).symm hkey.symm

theorem value_of_get (h : (schedule conf calls)[t]? = some (p, k))
    (hg : g ∈ p.call.pattern.gets r) :
    theValue (prog conf calls) t (storeKey conf g.src (key conf.dupKeys p.stem k g.xs)) =
      putValue conf (p.cut (p.call.want r g.block)) :=
  theValue_eq (put_of_get h hg) fun _ _ => put_unique h hg

/-- A get of a round is one of its chunk. -/
theorem exists_get {K : Option (Fin size) × List Char} (h : K ∈ (prog conf calls r t).gets) :
    ∃ p k g, (schedule conf calls)[t]? = some (p, k) ∧ g ∈ p.call.pattern.gets r ∧
      K = storeKey conf g.src (key conf.dupKeys p.stem k g.xs) := by
  cases hs : (schedule conf calls)[t]? with
  | none =>
    rw [prog_of_none hs] at h
    simp at h
  | some y =>
    obtain ⟨p, k⟩ := y
    rw [prog_of_some hs, List.mem_map] at h
    obtain ⟨g, hg, rfl⟩ := h
    exact ⟨p, k, g, rfl, hg, rfl⟩

/-- Two phases of keys are enough. -/
theorem disciplined (conf : Conf) (calls : List (Call size)) :
    Disciplined (prog conf calls) (theValue (prog conf calls)) where
  put h := by
    obtain ⟨p, k, g, hs, hg, rfl⟩ := exists_get h
    exact ⟨g.src, value_of_get hs hg ▸ put_of_get hs hg⟩
  unique h q v hv := by
    obtain ⟨p, k, g, hs, hg, rfl⟩ := exists_get h
    rw [value_of_get hs hg, put_unique hs hg hv]
  spaced h q v := by
    obtain ⟨p, k, g, hs, hg, rfl⟩ := exists_get h
    exact put_spaced hs hg q v

theorem mem_reads {y : Nat × (Piece size × Nat) × Get size} :
    y ∈ reads conf calls r n ↔ y.1 < n ∧ (schedule conf calls)[y.1]? = some y.2.1 ∧
      y.2.2 ∈ y.2.1.1.call.pattern.gets r := by
  unfold reads
  rw [List.mem_flatMap]
  constructor
  · rintro ⟨t, ht, hy⟩
    split at hy
    · simp at hy
    · rename_i hs
      obtain ⟨g, hg, rfl⟩ := List.mem_map.1 hy
      exact ⟨List.mem_range.1 ht, hs, hg⟩
  · rintro ⟨ht, hs, hg⟩
    refine ⟨y.1, List.mem_range.2 ht, ?_⟩
    rw [hs]
    exact List.mem_map.2 ⟨y.2.2, hg, rfl⟩

/-- What a rank gets in its first rounds is what was put for each of its gets. -/
theorem expected_eq (r : Fin size) (n : Nat) :
    expected (prog conf calls) (theValue (prog conf calls)) r n =
      (reads conf calls r n).map fun y =>
        some (putValue conf (y.2.1.1.cut (y.2.1.1.call.want r y.2.2.block))) := by
  unfold expected reads
  rw [List.map_flatMap]
  refine List.flatMap_congr fun t _ => ?_
  cases hs : (schedule conf calls)[t]? with
  | none => simp [prog_of_none hs]
  | some y =>
    obtain ⟨p, k⟩ := y
    rw [prog_of_some hs, List.map_map, List.map_map]
    refine List.map_congr_left fun g hg => ?_
    exact congrArg some (value_of_get hs hg)

end Gasnet.Pmi
