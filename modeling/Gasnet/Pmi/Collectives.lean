import Gasnet.Pmi.Ascii85

/-! The keys of the PMI store: which are equal, and how long they are. -/
namespace Gasnet.Pmi

variable {c : Char} {x y n : Nat} {xs ys : List Nat} {l l' r r' : List Char}

/-- Exchange, all-to-all, broadcast and subset broadcast. -/
inductive Stem
  | E
  | A
  | B
  | S
deriving DecidableEq

def Stem.upper : Stem → Char
  | .E => 'E'
  | .A => 'A'
  | .B => 'B'
  | .S => 'S'

def Stem.lower : Stem → Char
  | .E => 'e'
  | .A => 'a'
  | .B => 'b'
  | .S => 's'

/-- `%x` of an `unsigned int`. -/
def hex (x : Nat) : List Char := Nat.toDigits 16 x

/-- Numbers with a separator between them. -/
def dotted : List Nat → List Char
  | [] => []
  | [x] => hex x
  | x :: y :: xs => hex x ++ '.' :: dotted (y :: xs)

/-- A key. With `GASNETI_PMI_DUP_KEYS` the parity of the counter is the case of the stem; without,
the 32-bit counter is the first number. -/
def key (dup : Bool) (stem : Stem) (counter : Nat) (xs : List Nat) : List Char :=
  if dup then (if counter % 2 = 1 then stem.upper else stem.lower) :: dotted xs
  else stem.upper :: dotted (counter % 2 ^ 32 :: xs)

/-- `do_kvs_key0`. -/
def key0 (dup : Bool) (stem : Stem) (counter : Nat) : List Char := key dup stem counter []

/-- `do_kvs_key1`. -/
def key1 (dup : Bool) (stem : Stem) (counter x : Nat) : List Char := key dup stem counter [x]

/-- `do_kvs_key2`. -/
def key2 (dup : Bool) (stem : Stem) (counter x y : Nat) : List Char := key dup stem counter [x, y]

theorem digitChar_inj {a b : Nat} (ha : a < 16) (hb : b < 16)
    (h : Nat.digitChar a = Nat.digitChar b) : a = b := by
  have hall : ∀ a < 16, ∀ b < 16, Nat.digitChar a = Nat.digitChar b → a = b := by decide
  exact hall a ha b hb h

theorem digitChar_ne_dot {a : Nat} (ha : a < 16) : Nat.digitChar a ≠ '.' := by
  have hall : ∀ a < 16, Nat.digitChar a ≠ '.' := by decide
  exact hall a ha

theorem hex_of_lt (h : x < 16) : hex x = [Nat.digitChar x] := Nat.toDigits_of_lt_base h

theorem hex_of_le (h : 16 ≤ x) : hex x = hex (x / 16) ++ [Nat.digitChar (x % 16)] :=
  Nat.toDigits_of_base_le (by decide) h

theorem dot_notMem_hex (x : Nat) : '.' ∉ hex x := by
  induction x using Nat.strongRecOn with
  | ind x ih =>
    intro hmem
    by_cases hx : x < 16
    · rw [hex_of_lt hx, List.mem_singleton] at hmem
      exact digitChar_ne_dot hx hmem.symm
    · rw [hex_of_le (by omega), List.mem_append, List.mem_singleton] at hmem
      rcases hmem with hmem | hmem
      · exact ih (x / 16) (by omega) hmem
      · exact digitChar_ne_dot (by omega) hmem.symm

theorem hex_ne_nil (x : Nat) : hex x ≠ [] := Nat.toDigits_ne_nil

theorem hex_inj (h : hex x = hex y) : x = y := by
  induction x using Nat.strongRecOn generalizing y with
  | ind x ih =>
    by_cases hx : x < 16 <;> by_cases hy : y < 16
    · rw [hex_of_lt hx, hex_of_lt hy, List.singleton_inj] at h
      exact digitChar_inj hx hy h
    · rw [hex_of_lt hx, hex_of_le (by omega), ← List.nil_append [Nat.digitChar x]] at h
      exact absurd (List.append_inj_left' h rfl).symm (hex_ne_nil _)
    · rw [hex_of_le (by omega), hex_of_lt hy, ← List.nil_append [Nat.digitChar y]] at h
      exact absurd (List.append_inj_left' h rfl) (hex_ne_nil _)
    · rw [hex_of_le (x := x) (by omega), hex_of_le (x := y) (by omega)] at h
      have hdiv := ih (x / 16) (by omega) (List.append_inj_left' h rfl)
      have hmod := digitChar_inj (by omega) (by omega)
        (List.singleton_inj.1 (List.append_inj_right' h rfl))
      omega

/-- What stands before the first separator is determined. -/
theorem split_inj (hl : c ∉ l) (hl' : c ∉ l') (h : l ++ c :: r = l' ++ c :: r') :
    l = l' ∧ r = r' := by
  induction l generalizing l' with
  | nil =>
    cases l' with
    | nil => exact ⟨rfl, (List.cons.inj h).2⟩
    | cons a l' =>
      rw [(List.cons.inj h).1] at hl'
      exact absurd List.mem_cons_self hl'
  | cons a l ih =>
    cases l' with
    | nil =>
      rw [← (List.cons.inj h).1] at hl
      exact absurd List.mem_cons_self hl
    | cons b l' =>
      obtain ⟨hab, h⟩ := List.cons.inj h
      obtain ⟨hll, hrr⟩ := ih (fun hm => hl (List.mem_cons_of_mem _ hm))
        (fun hm => hl' (List.mem_cons_of_mem _ hm)) h
      exact ⟨by rw [hab, hll], hrr⟩

theorem dotted_inj (hlen : xs.length = ys.length) (h : dotted xs = dotted ys) : xs = ys := by
  induction xs using dotted.induct generalizing ys with
  | case1 => exact (List.length_eq_zero_iff.1 hlen.symm).symm
  | case2 x =>
    obtain ⟨y, rfl⟩ := List.length_eq_one_iff.1 hlen.symm
    rw [hex_inj h]
  | case3 x x' xs ih =>
    match ys, hlen with
    | y :: y' :: ys, hlen =>
      obtain ⟨hx, hrest⟩ := split_inj (dot_notMem_hex x) (dot_notMem_hex y) h
      rw [hex_inj hx, ih (by simpa using hlen) hrest]

theorem stem_inj {s s' : Stem} :
    s.upper ≠ s'.lower ∧ (s.upper = s'.upper → s = s') ∧ (s.lower = s'.lower → s = s') := by
  cases s <;> cases s' <;> decide

/-- Equal keys are for one stem and the same numbers. -/
theorem key_inj {dup : Bool} {s s' : Stem} {m : Nat} (hlen : s = s' → xs.length = ys.length)
    (h : key dup s m xs = key dup s' n ys) : s = s' ∧ xs = ys := by
  cases dup with
  | false =>
    simp only [key, Bool.false_eq_true, if_false, List.cons.injEq] at h
    have hs := stem_inj.2.1 h.1
    have := dotted_inj (by simp [hlen hs]) h.2
    exact ⟨hs, (List.cons.inj this).2⟩
  | true =>
    simp only [key, if_true, List.cons.injEq] at h
    have hs : s = s' := by
      split_ifs at h
      · exact stem_inj.2.1 h.1
      · exact absurd h.1 stem_inj.1
      · exact absurd h.1.symm stem_inj.1
      · exact stem_inj.2.2 h.1
    exact ⟨hs, dotted_inj (hlen hs) h.2⟩

/-- One use of a stem and the next one have no key in common. -/
theorem key_succ_ne {dup : Bool} {s : Stem} {m : Nat} (hlen : xs.length = ys.length) :
    key dup s m xs ≠ key dup s (m + 1) ys := by
  intro h
  cases dup with
  | false =>
    simp only [key, Bool.false_eq_true, if_false, List.cons.injEq, true_and] at h
    have := List.head_eq_of_cons_eq (dotted_inj (by simp [hlen]) h)
    omega
  | true =>
    simp only [key, if_true, List.cons.injEq] at h
    split_ifs at h
    · omega
    · exact absurd h.1 stem_inj.1
    · exact absurd h.1.symm stem_inj.1
    · omega

end Gasnet.Pmi

/-! The collectives of the PMI spawner, as what each rank puts under which keys and where it stores
what it gets. -/
namespace Gasnet.Pmi

abbrev Block := List Byte

variable {size : Nat}

/-- A get: the numbers of its key, the rank that is asked, and the block of the destination. -/
structure Get (size : Nat) where
  xs : List Nat
  src : Fin size
  block : Nat

/-- What the loop of a collective does for each chunk of its `len` bytes, and the copy at its
end. -/
structure Pattern (size : Nat) where
  stem : Stem
  len : Nat
  puts : Fin size → List (List Nat × Block)
  gets : Fin size → List (Get size)
  own : Fin size → List (Nat × Block)

/-- A collective call: what all ranks pass to it. -/
inductive Call (size : Nat)
  | exchange (len : Nat) (src : Fin size → Block) (hsrc : ∀ r, (src r).length = len)
  | alltoall (len : Nat) (src : Fin size → Fin size → Block) (hsrc : ∀ r i, (src r i).length = len)
  | broadcast (len : Nat) (root : Fin size) (src : Block) (hsrc : src.length = len)
  | subset (len : Nat) (root : Fin size → Fin size) (src : Fin size → Block)
      (hsrc : ∀ r, (src r).length = len) (hroot : ∀ r, root (root r) = root r)

/-- The ranks other than one. -/
def others (r : Fin size) : List (Fin size) := (List.finRange size).filter (· ≠ r)

/-- `bootstrapExchange`. -/
def bootstrapExchange (len : Nat) (src : Fin size → Block) : Pattern size where
  stem := .E
  len := len
  puts r := [([r.val], src r)]
  gets r := (others r).map fun i => ⟨[i.val], i, i⟩
  own r := [(r, src r)]

/-- `bootstrapAlltoall`. -/
def bootstrapAlltoall (len : Nat) (src : Fin size → Fin size → Block) : Pattern size where
  stem := .A
  len := len
  puts r := (others r).map fun i => ([r.val, i.val], src r i)
  gets r := (others r).map fun i => ⟨[i.val, r.val], i, i⟩
  own r := [(r, src r r)]

/-- `bootstrapBroadcast`. -/
def bootstrapBroadcast (len : Nat) (root : Fin size) (src : Block) : Pattern size where
  stem := .B
  len := len
  puts r := if r = root then [([], src)] else []
  gets r := if r = root then [] else [⟨[], root, 0⟩]
  own r := if r = root then [(0, src)] else []

/-- `bootstrapSubsetBroadcast`. All roots broadcast at the same time. -/
def bootstrapSubsetBroadcast (len : Nat) (root : Fin size → Fin size) (src : Fin size → Block) :
    Pattern size where
  stem := .S
  len := len
  puts r := if r = root r then [([(root r).val], src r)] else []
  gets r := if r = root r then [] else [⟨[(root r).val], root r, 0⟩]
  own r := if r = root r then [(0, src r)] else []

namespace Call

def pattern : Call size → Pattern size
  | exchange len src _ => bootstrapExchange len src
  | alltoall len src _ => bootstrapAlltoall len src
  | broadcast len root src _ => bootstrapBroadcast len root src
  | subset len root src _ _ => bootstrapSubsetBroadcast len root src

def len (c : Call size) : Nat := c.pattern.len

/-- The blocks of the destination of a rank. -/
def blocks : Call size → Nat
  | exchange .. | alltoall .. => size
  | broadcast .. | subset .. => 1

/-- What each of them is to be. -/
def want : Call size → Fin size → Nat → Block
  | exchange _ src _, _, b => if h : b < size then src ⟨b, h⟩ else []
  | alltoall _ src _, r, b => if h : b < size then src ⟨b, h⟩ r else []
  | broadcast _ _ src _, _, _ => src
  | subset _ root src _ _, r, _ => src (root r)

end Call

/-- How many numbers the keys of a collective have. -/
def Stem.arity : Stem → Nat
  | .E => 1
  | .A => 2
  | .B => 0
  | .S => 1

/-- A pattern fits a goal: its keys are of one kind and have one block each, what is got is put as
it is wanted, and what is not got is one's own. -/
structure Pattern.Serves (p : Pattern size) (blocks : Nat) (want : Fin size → Nat → Block) :
    Prop where
  arity : ∀ r, (∀ x ∈ p.puts r, x.1.length = p.stem.arity) ∧
    ∀ g ∈ p.gets r, g.xs.length = p.stem.arity
  put : ∀ r, ∀ g ∈ p.gets r, (g.xs, want r g.block) ∈ p.puts g.src
  unique : ∀ r, ∀ g ∈ p.gets r, ∀ q, ∀ x ∈ p.puts q, x.1 = g.xs → q = g.src ∧ x.2 = want r g.block
  own : ∀ r, ∀ x ∈ p.own r, x.2 = want r x.1
  all : ∀ r, ∀ b < blocks, (∃ x ∈ p.own r, x.1 = b) ∨ ∃ g ∈ p.gets r, g.block = b
  length : ∀ r, ∀ b < blocks, (want r b).length = p.len
  inside : ∀ r, (∀ g ∈ p.gets r, g.block < blocks) ∧ ∀ x ∈ p.own r, x.1 < blocks

theorem mem_others {r i : Fin size} : i ∈ others r ↔ i ≠ r := by
  simp [others]

theorem exchange_serves {len : Nat} {src : Fin size → Block} (h : ∀ r, (src r).length = len) :
    (bootstrapExchange len src).Serves size fun r => Call.want (.exchange len src h) r where
  arity r := by simp [bootstrapExchange, Stem.arity]
  put r g hg := by
    obtain ⟨i, -, rfl⟩ := List.mem_map.1 hg
    simp [bootstrapExchange, Call.want]
  unique r g hg q x hx he := by
    obtain ⟨i, -, rfl⟩ := List.mem_map.1 hg
    obtain rfl := List.mem_singleton.1 hx
    obtain rfl : q = i := Fin.ext (by simpa using he)
    simp [Call.want]
  own r x hx := by
    obtain rfl := List.mem_singleton.1 hx
    simp [Call.want]
  all r b hb := by
    by_cases hbr : (⟨b, hb⟩ : Fin size) = r
    · exact .inl ⟨_, List.mem_singleton_self _, congrArg Fin.val hbr.symm⟩
    · exact .inr ⟨_, List.mem_map_of_mem (mem_others.2 hbr), rfl⟩
  length r b hb := by simp [Call.want, hb, h, bootstrapExchange]
  inside r := by
    refine ⟨fun g hg => ?_, fun x hx => ?_⟩
    · obtain ⟨i, -, rfl⟩ := List.mem_map.1 hg
      exact i.isLt
    · obtain rfl := List.mem_singleton.1 hx
      exact r.isLt

theorem alltoall_serves {len : Nat} {src : Fin size → Fin size → Block}
    (h : ∀ r i, (src r i).length = len) :
    (bootstrapAlltoall len src).Serves size fun r => Call.want (.alltoall len src h) r where
  arity r := by simp [bootstrapAlltoall, Stem.arity]
  put r g hg := by
    obtain ⟨i, hi, rfl⟩ := List.mem_map.1 hg
    have hr : r ∈ others i := mem_others.2 (mem_others.1 hi).symm
    refine List.mem_map.2 ⟨r, hr, ?_⟩
    simp [Call.want]
  unique r g hg q x hx he := by
    obtain ⟨i, -, rfl⟩ := List.mem_map.1 hg
    obtain ⟨j, -, rfl⟩ := List.mem_map.1 hx
    simp only [List.cons.injEq, and_true] at he
    obtain rfl : q = i := Fin.ext he.1
    obtain rfl : j = r := Fin.ext he.2
    simp [Call.want]
  own r x hx := by
    obtain rfl := List.mem_singleton.1 hx
    simp [Call.want]
  all r b hb := by
    by_cases hbr : (⟨b, hb⟩ : Fin size) = r
    · exact .inl ⟨_, List.mem_singleton_self _, congrArg Fin.val hbr.symm⟩
    · exact .inr ⟨_, List.mem_map_of_mem (mem_others.2 hbr), rfl⟩
  length r b hb := by simp [Call.want, hb, h, bootstrapAlltoall]
  inside r := by
    refine ⟨fun g hg => ?_, fun x hx => ?_⟩
    · obtain ⟨i, -, rfl⟩ := List.mem_map.1 hg
      exact i.isLt
    · obtain rfl := List.mem_singleton.1 hx
      exact r.isLt

theorem broadcast_serves {len : Nat} {root : Fin size} {src : Block} (h : src.length = len) :
    (bootstrapBroadcast len root src).Serves 1
      fun r => Call.want (.broadcast len root src h) r where
  arity r := by
    by_cases hr : r = root <;> simp [bootstrapBroadcast, Stem.arity, hr]
  put r g hg := by
    by_cases hr : r = root <;> simp [bootstrapBroadcast, hr] at hg
    simp [bootstrapBroadcast, Call.want, hg]
  unique r g hg q x hx _ := by
    by_cases hr : r = root <;> simp [bootstrapBroadcast, hr] at hg
    by_cases hq : q = root <;> simp [bootstrapBroadcast, hq] at hx
    simp [Call.want, hg, hx, hq]
  own r x hx := by
    by_cases hr : r = root <;> simp [bootstrapBroadcast, hr] at hx
    simp [Call.want, hx]
  all r b hb := by
    obtain rfl : b = 0 := by omega
    by_cases hr : r = root <;> simp [bootstrapBroadcast, hr]
  length r b hb := by simp [Call.want, h, bootstrapBroadcast]
  inside r := by
    by_cases hr : r = root <;> simp [bootstrapBroadcast, hr]

theorem subset_serves {len : Nat} {root : Fin size → Fin size} {src : Fin size → Block}
    (h : ∀ r, (src r).length = len) (hroot : ∀ r, root (root r) = root r) :
    (bootstrapSubsetBroadcast len root src).Serves 1
      fun r => Call.want (.subset len root src h hroot) r where
  arity r := by
    by_cases hr : r = root r
    · simp [bootstrapSubsetBroadcast, Stem.arity, ← hr]
    · simp [bootstrapSubsetBroadcast, Stem.arity, hr]
  put r g hg := by
    by_cases hr : r = root r
    · simp [bootstrapSubsetBroadcast, ← hr] at hg
    · simp only [bootstrapSubsetBroadcast, if_neg hr, List.mem_singleton] at hg
      simp [bootstrapSubsetBroadcast, Call.want, hg, hroot]
  unique r g hg q x hx he := by
    by_cases hr : r = root r
    · simp [bootstrapSubsetBroadcast, ← hr] at hg
    simp only [bootstrapSubsetBroadcast, if_neg hr, List.mem_singleton] at hg
    by_cases hq : q = root q
    · simp only [bootstrapSubsetBroadcast, if_pos hq, List.mem_singleton] at hx
      rw [hx, hg] at he
      have hqr : q = root r := Fin.ext (by rw [hq]; simpa using he)
      rw [hx, hg]
      exact ⟨hqr, congrArg src hqr⟩
    · simp [bootstrapSubsetBroadcast, hq] at hx
  own r x hx := by
    by_cases hr : r = root r
    · simp only [bootstrapSubsetBroadcast, if_pos hr, List.mem_singleton] at hx
      rw [hx]
      exact congrArg src hr
    · simp [bootstrapSubsetBroadcast, hr] at hx
  all r b hb := by
    obtain rfl : b = 0 := by omega
    by_cases hr : r = root r
    · left
      exact ⟨(0, src r), by simp [bootstrapSubsetBroadcast, ← hr], rfl⟩
    · right
      exact ⟨⟨[(root r).val], root r, 0⟩, by simp [bootstrapSubsetBroadcast, hr], rfl⟩
  length r b hb := by simp [Call.want, h, bootstrapSubsetBroadcast]
  inside r := by
    by_cases hr : r = root r
    · simp [bootstrapSubsetBroadcast, ← hr]
    · simp [bootstrapSubsetBroadcast, hr]

theorem Call.serves (c : Call size) : c.pattern.Serves c.blocks c.want := by
  cases c with
  | exchange len src h => exact exchange_serves h
  | alltoall len src h => exact alltoall_serves h
  | broadcast len root src h => exact broadcast_serves h
  | subset len root src h hroot => exact subset_serves h hroot

end Gasnet.Pmi
