import Mathlib.Data.List.Induction
import Mathlib.Data.List.TakeWhile
import Mathlib.Algebra.Ring.Nat

/-! The binary form of the tree in a tuning file: what the constructors build, what is written of it and
what the loader reads. -/
namespace Gasnet.Myxml

abbrev Bytes := List UInt8

/-- A string as `STR_ALLOC_AND_COPY` leaves it in memory. -/
def block (s : Bytes) : Bytes := s ++ [0]

/-- `strlen`. -/
def strlen (b : Bytes) : Nat := (b.takeWhile (· ≠ 0)).length

/-- The pointer `value` of a node: one that was never set, NULL, or to a string. -/
inductive Value
  | unset
  | null
  | str (b : Bytes)
  deriving DecidableEq

/-- `myxml_node_class_t`. -/
inductive NodeClass
  | root | leaf | inter
  deriving DecidableEq

/-- `myxml_node_t`, without the pointer to the parent. -/
inductive Node
  | mk (id : Nat) (nodeclass : NodeClass) (tag : Bytes) (value : Value) (num_children : Nat)
      (children : List Node) (num_attributes : Nat) (attribute_list : List (Bytes × Bytes))

/-- `myxml_createNode_attr_list`, which leaves `num_attributes` as `gasneti_calloc` does. -/
def createNode (root : Bool) (tag : Bytes) (attrs : List (Bytes × Bytes)) (value : Option Bytes) :
    Node :=
  .mk 0
    (if value.isSome then .leaf else if root then .root else .inter)
    (block tag)
    (match value with
      | some v => .str (block v)
      | none => .null)
    0 [] 0 (attrs.map fun a => (block a.1, block a.2))

/-- `myxml_addAttribute`. The array is allocated anew for `num_attributes + 1` of them. -/
def Node.addAttribute : Node → Bytes × Bytes → Node
  | .mk id c tag value k children n attrs, a =>
    .mk id c tag value k children (n + 1) (attrs.take n ++ [(block a.1, block a.2)])

/-- `add myself to my parents children list`. -/
def Node.addChild : Node → Node → Node
  | .mk id c tag value k children n attrs, child =>
    .mk id c tag value (k + 1) (children ++ [child]) n attrs

/-- A tree as it is given to the constructors: the attributes at the construction of a node, and those
that are added. -/
inductive Spec
  | mk (tag : Bytes) (attrs more : List (Bytes × Bytes)) (value : Option Bytes)
      (children : List Spec)

mutual
/-- What the constructors build. -/
def Spec.build (root : Bool) : Spec → Node
  | .mk tag attrs more value children =>
    (buildAll children).foldl .addChild (more.foldl .addAttribute (createNode root tag attrs value))

def Spec.buildAll : List Spec → List Node
  | [] => []
  | s :: ss => s.build false :: buildAll ss
end

mutual
/-- The node that is meant, with all its attributes. -/
def Spec.meant (root : Bool) : Spec → Node
  | .mk tag attrs more value children =>
    .mk 0 (if value.isSome then .leaf else if root then .root else .inter) (block tag)
      (match value with
        | some v => .str (block v)
        | none => .null)
      children.length (meantAll children) (attrs ++ more).length
      ((attrs ++ more).map fun a => (block a.1, block a.2))

def Spec.meantAll : List Spec → List Node
  | [] => []
  | s :: ss => s.meant false :: meantAll ss
end

mutual
/-- `myxml_countAndLabelNodes`: the labelled node and the count. -/
def Node.label (l : Nat) : Node → Node × Nat
  | .mk _ c tag value k children n attrs =>
    let below := labelAll (l + 1) children
    (.mk (l % 2 ^ 32) c tag value k below.1 n attrs, below.2 + 1)

def Node.labelAll (l : Nat) : List Node → List Node × Nat
  | [] => ([], 0)
  | t :: ts =>
    let first := t.label l
    let others := labelAll (l + first.2) ts
    (first.1 :: others.1, first.2 + others.2)
end

section Bytes

/-- The image of a `uint32_t` in the file: most significant byte first if `big`. -/
def word (big : Bool) (x : Nat) : Bytes :=
  let bytes := [UInt8.ofNat x, UInt8.ofNat (x / 2 ^ 8), UInt8.ofNat (x / 2 ^ 16), UInt8.ofNat (x / 2 ^ 24)]
  if big then bytes.reverse else bytes

/-- The `uint32_t` with this image. -/
def unword (big : Bool) (bytes : Bytes) : Nat :=
  (if big then bytes else bytes.reverse).foldl (fun x b => x * 2 ^ 8 + b.toNat) 0

variable (big : Bool)

/-- The length of a string with its NUL, and the string. -/
def dumpString (b : Bytes) : Bytes := word big (strlen b + 1) ++ b.take (strlen b + 1)

/-- The value, or a length of zero if the pointer is NULL. -/
def dumpValue : Value → Bytes
  | .str b => dumpString big b
  | _ => word big 0

mutual
/-- `dump_TreeBIN`. -/
def Node.dump : Node → Bytes
  | .mk id _ tag value k children n attrs =>
    word big id ++ word big k ++ word big n ++ dumpString big tag ++
      (attrs.take n).flatMap (fun a => dumpString big a.1 ++ dumpString big a.2) ++
      dumpValue big value ++ dumpAll children

def Node.dumpAll : List Node → Bytes
  | [] => []
  | t :: ts => t.dump ++ dumpAll ts
end

/-- `myxml_printTreeBIN`. -/
def printTree (t : Node) : Bytes :=
  let labelled := t.label 0
  word big labelled.2 ++ labelled.1.dump big

/-- What comes of a read: it goes on with the bytes that are left, it ends at an allocation that cannot be
met, or it has read beyond the buffer. -/
inductive Load (α : Type)
  | ok (a : α) (left : Bytes)
  | stopped
  | overread

def Load.bind {α β : Type} : Load α → (α → Bytes → Load β) → Load β
  | ok a left, f => f a left
  | stopped, _ => stopped
  | overread, _ => overread

/-- `SAFE_READ_BYTES`, which copies before it looks at the size. -/
def safeRead (n : Nat) (left : Bytes) : Load Bytes :=
  if left.length < n then .overread else .ok (left.take n) (left.drop n)

/-- A `uint32_t`. -/
def readWord (left : Bytes) : Load Nat := (safeRead 4 left).bind fun b left => .ok (unword big b) left

/-- A length and as many bytes. -/
def readString (left : Bytes) : Load Bytes := (readWord big left).bind safeRead

def readAttributes : Nat → Bytes → Load (List (Bytes × Bytes))
  | 0, left => .ok [] left
  | n + 1, left =>
    (readString big left).bind fun name left =>
    (readString big left).bind fun val left =>
    (readAttributes n left).bind fun attrs left => .ok ((name, val) :: attrs) left

/-- `gasneti_malloc` of an array of `n` elements, where `n` becomes an `int`: a size that is negative is
more than there is. -/
def alloc (n : Nat) (left : Bytes) : Load Unit := if n < 2 ^ 31 then .ok () left else .stopped

/-- The loop over the children. -/
def readChildren (load : Bytes → Load Node) : Nat → Bytes → Load (List Node)
  | 0, left => .ok [] left
  | k + 1, left =>
    (load left).bind fun t left => (readChildren load k left).bind fun ts left => .ok (t :: ts) left

/-- `nodeclass` after the bytes of the value. -/
def loadedClass (root : Bool) (value : Bytes) : NodeClass :=
  if value = [] then if root then .root else .inter else .leaf

/-- `value` after its bytes. The node is from `gasneti_malloc`. -/
def loadedValue (value : Bytes) : Value := if value = [] then .unset else .str value

/-- `myxml_loadTreeHelper_bytestream`. A node takes bytes, so `fuel` ends only where none is left. -/
def loadNode (root : Bool) : Nat → Bytes → Load Node
  | 0, _ => .overread
  | fuel + 1, left =>
    (readWord big left).bind fun id left =>
    (readWord big left).bind fun k left =>
    (readWord big left).bind fun n left =>
    (readString big left).bind fun tag left =>
    (alloc n left).bind fun _ left =>
    (readAttributes big n left).bind fun attrs left =>
    (readString big left).bind fun value left =>
    (alloc k left).bind fun _ left =>
    (readChildren (loadNode false fuel) k left).bind fun children left =>
      .ok (.mk id (loadedClass root value) tag (loadedValue value) k children n attrs) left

/-- `myxml_loadTreeBYTESTREAM`. -/
def loadTree (bytes : Bytes) : Load Node :=
  (readWord big bytes).bind fun _ left => loadNode big true bytes.length left

end Bytes

section Image

variable (big : Bool)

/-- A string with its length. -/
def text (s : Bytes) : Bytes := word big s.length ++ s

def texts (attrs : List (Bytes × Bytes)) : Bytes := attrs.flatMap fun a => text big a.1 ++ text big a.2

def Value.bytes : Value → Bytes
  | .str b => b
  | _ => []

mutual
/-- The bytes that stand for a node. -/
def Node.image : Node → Bytes
  | .mk id _ tag value k children n attrs =>
    word big id ++ (word big k ++ (word big n ++ (text big tag ++ (texts big attrs ++
      (text big value.bytes ++ imageAll children)))))

def Node.imageAll : List Node → Bytes
  | [] => []
  | t :: ts => t.image ++ imageAll ts
end

/-- A node that the loader can have made. -/
inductive Wide : Bool → Node → Prop
  | mk {root : Bool} {id : Nat} {tag value : Bytes} {children : List Node} {attrs : List (Bytes × Bytes)} :
      id < 2 ^ 32 → tag.length < 2 ^ 32 → value.length < 2 ^ 32 →
      (∀ a ∈ attrs, a.1.length < 2 ^ 32 ∧ a.2.length < 2 ^ 32) → attrs.length < 2 ^ 31 →
      children.length < 2 ^ 31 → (∀ t ∈ children, Wide false t) →
      Wide root (.mk id (loadedClass root value) tag (loadedValue value) children.length children
        attrs.length attrs)

/-- Bytes that end the load of a node at a count that is negative as an `int`: of its attributes, of its
children, or below one of its children. -/
inductive Ends : Bytes → Prop
  | attributes {id k n : Nat} {tag left : Bytes} : id < 2 ^ 32 → k < 2 ^ 32 → 2 ^ 31 ≤ n → n < 2 ^ 32 →
      tag.length < 2 ^ 32 →
      Ends (word big id ++ (word big k ++ (word big n ++ (text big tag ++ left))))
  | children {id k : Nat} {tag value left : Bytes} {attrs : List (Bytes × Bytes)} : id < 2 ^ 32 →
      2 ^ 31 ≤ k → k < 2 ^ 32 → tag.length < 2 ^ 32 → value.length < 2 ^ 32 →
      (∀ a ∈ attrs, a.1.length < 2 ^ 32 ∧ a.2.length < 2 ^ 32) → attrs.length < 2 ^ 31 →
      Ends (word big id ++ (word big k ++ (word big attrs.length ++ (text big tag ++
        (texts big attrs ++ (text big value ++ left))))))
  | beneath {id k : Nat} {tag value left : Bytes} {attrs : List (Bytes × Bytes)} {before : List Node} :
      id < 2 ^ 32 → k < 2 ^ 31 → tag.length < 2 ^ 32 → value.length < 2 ^ 32 →
      (∀ a ∈ attrs, a.1.length < 2 ^ 32 ∧ a.2.length < 2 ^ 32) → attrs.length < 2 ^ 31 →
      (∀ t ∈ before, Wide false t) → before.length < k → Ends left →
      Ends (word big id ++ (word big k ++ (word big attrs.length ++ (text big tag ++
        (texts big attrs ++ (text big value ++ (Node.imageAll big before ++ left)))))))

end Image

variable {big root : Bool} {t : Node} {left rest b s : Bytes} {n k : Nat}

/-! What a read says of the bytes. -/

namespace Load

variable {α β : Type} {x : Load α} {f : α → Bytes → Load β} {P : α → Bytes → Prop} {P' : β → Bytes → Prop}
  {Q : Prop}

/-- A read that goes on makes `P` true, one that is stopped `Q`. -/
def Meets (P : α → Bytes → Prop) (Q : Prop) : Load α → Prop
  | ok a left => P a left
  | stopped => Q
  | overread => True

theorem Meets.bind (hx : x.Meets P Q) (hf : ∀ a left, P a left → (f a left).Meets P' Q) :
    (x.bind f).Meets P' Q := by
  cases x with
  | ok a left => exact hf a left hx
  | stopped => exact hx
  | overread => trivial

theorem Meets.mono {P₂ : α → Bytes → Prop} {Q₂ : Prop} (hx : x.Meets P Q)
    (hP : ∀ a left, P a left → P₂ a left) (hQ : Q → Q₂) : x.Meets P₂ Q₂ := by
  cases x with
  | ok a left => exact hP a left hx
  | stopped => exact hQ hx
  | overread => trivial

end Load

theorem length_word (big : Bool) (x : Nat) : (word big x).length = 4 := by
  cases big <;> rfl

theorem unword_word (big : Bool) (x : Nat) : unword big (word big x) = x % 2 ^ 32 := by
  have hbytes : unword big (word big x) = [UInt8.ofNat (x / 2 ^ 24), UInt8.ofNat (x / 2 ^ 16),
      UInt8.ofNat (x / 2 ^ 8), UInt8.ofNat x].foldl (fun x b => x * 2 ^ 8 + b.toNat) 0 := by
    cases big <;> rfl
  rw [hbytes]
  simp only [List.foldl_cons, List.foldl_nil, UInt8.toNat_ofNat']
  omega

theorem word_bytes (a b c d : UInt8) :
    word true (((a.toNat * 2 ^ 8 + b.toNat) * 2 ^ 8 + c.toNat) * 2 ^ 8 + d.toNat) = [a, b, c, d] := by
  have ha := a.toNat_lt
  have hb := b.toNat_lt
  have hc := c.toNat_lt
  have hd := d.toNat_lt
  have hword : ∀ x, word true x = [UInt8.ofNat (x / 2 ^ 24), UInt8.ofNat (x / 2 ^ 16),
      UInt8.ofNat (x / 2 ^ 8), UInt8.ofNat x] := fun _ => rfl
  rw [hword]
  simp only [List.cons.injEq, ← UInt8.toNat_inj, UInt8.toNat_ofNat', and_true]
  omega

/-- Four bytes are a word. -/
theorem word_unword (big : Bool) (h : b.length = 4) : unword big b < 2 ^ 32 ∧ word big (unword big b) = b := by
  obtain ⟨p, q, r, s, rfl⟩ : ∃ p q r s, b = [p, q, r, s] := by
    match b, h with
    | [p, q, r, s], _ => exact ⟨p, q, r, s, rfl⟩
  have hreverse : ∀ x, word false x = (word true x).reverse := fun _ => rfl
  have hp := p.toNat_lt
  have hq := q.toNat_lt
  have hr := r.toNat_lt
  have hs := s.toNat_lt
  cases big with
  | true =>
    have hunword : unword true [p, q, r, s] =
        ((p.toNat * 2 ^ 8 + q.toNat) * 2 ^ 8 + r.toNat) * 2 ^ 8 + s.toNat := by
      simp [unword]
    rw [hunword, word_bytes]
    exact ⟨by omega, rfl⟩
  | false =>
    have hunword : unword false [p, q, r, s] =
        ((s.toNat * 2 ^ 8 + r.toNat) * 2 ^ 8 + q.toNat) * 2 ^ 8 + p.toNat := by
      simp [unword]
    rw [hunword, hreverse, word_bytes]
    exact ⟨by omega, rfl⟩

theorem safeRead_append (s left : Bytes) : safeRead s.length (s ++ left) = .ok s left := by
  rw [safeRead, if_neg (by rw [List.length_append]; omega), List.take_left, List.drop_left]

theorem safeRead_meets (n : Nat) (b : Bytes) :
    (safeRead n b).Meets (fun s left => s.length = n ∧ b = s ++ left) False := by
  rw [safeRead]
  split
  · trivial
  · exact ⟨List.length_take_of_le (by omega), (List.take_append_drop n b).symm⟩

theorem readWord_word (big : Bool) (x : Nat) (left : Bytes) :
    readWord big (word big x ++ left) = .ok (x % 2 ^ 32) left := by
  have hread := safeRead_append (word big x) left
  rw [length_word] at hread
  rw [readWord, hread, ← unword_word big x]
  rfl

theorem readWord_meets (big : Bool) (b : Bytes) :
    (readWord big b).Meets (fun x left => x < 2 ^ 32 ∧ b = word big x ++ left) False := by
  refine (safeRead_meets 4 b).bind ?_
  rintro s left ⟨hs, rfl⟩
  have hword := word_unword big hs
  exact ⟨hword.1, by rw [hword.2]⟩

theorem readString_text (big : Bool) (h : s.length < 2 ^ 32) (left : Bytes) :
    readString big (text big s ++ left) = .ok s left := by
  rw [readString, text, List.append_assoc, readWord_word, Nat.mod_eq_of_lt h]
  exact safeRead_append s left

theorem readString_meets (big : Bool) (b : Bytes) :
    (readString big b).Meets (fun s left => s.length < 2 ^ 32 ∧ b = text big s ++ left) False := by
  refine (readWord_meets big b).bind ?_
  rintro n left ⟨hn, rfl⟩
  refine (safeRead_meets n left).mono ?_ id
  rintro s rest ⟨rfl, rfl⟩
  exact ⟨hn, by rw [text, List.append_assoc]⟩

theorem readAttributes_texts (big : Bool) {attrs : List (Bytes × Bytes)}
    (h : ∀ a ∈ attrs, a.1.length < 2 ^ 32 ∧ a.2.length < 2 ^ 32) (left : Bytes) :
    readAttributes big attrs.length (texts big attrs ++ left) = .ok attrs left := by
  induction attrs with
  | nil => rfl
  | cons a attrs ih =>
    have ha := h a List.mem_cons_self
    have hothers := ih fun a ha => h a (List.mem_cons_of_mem _ ha)
    rw [texts] at hothers
    rw [texts, List.flatMap_cons, List.append_assoc, List.append_assoc, List.length_cons, readAttributes,
      readString_text big ha.1]
    dsimp only [Load.bind]
    rw [readString_text big ha.2]
    dsimp only [Load.bind]
    rw [hothers]

theorem readAttributes_meets (big : Bool) (n : Nat) (b : Bytes) :
    (readAttributes big n b).Meets (fun attrs left => attrs.length = n ∧
      (∀ a ∈ attrs, a.1.length < 2 ^ 32 ∧ a.2.length < 2 ^ 32) ∧ b = texts big attrs ++ left) False := by
  induction n generalizing b with
  | zero => exact ⟨rfl, by simp, rfl⟩
  | succ n ih =>
    refine (readString_meets big b).bind ?_
    rintro name left ⟨hname, rfl⟩
    refine (readString_meets big left).bind ?_
    rintro val left ⟨hval, rfl⟩
    refine (ih left).bind ?_
    rintro attrs left ⟨hlen, hattrs, rfl⟩
    refine ⟨by rw [List.length_cons, hlen], ?_, ?_⟩
    · intro a ha
      rcases List.mem_cons.1 ha with rfl | ha
      · exact ⟨hname, hval⟩
      · exact hattrs a ha
    · rw [texts, texts, List.flatMap_cons, List.append_assoc, List.append_assoc]

theorem alloc_meets (n : Nat) (b : Bytes) :
    (alloc n b).Meets (fun _ left => n < 2 ^ 31 ∧ left = b) (2 ^ 31 ≤ n) := by
  rw [alloc]
  split
  · exact ⟨by assumption, rfl⟩
  · exact Nat.le_of_not_lt (by assumption)

theorem alloc_of_lt (h : n < 2 ^ 31) (b : Bytes) : alloc n b = .ok () b := if_pos h

theorem alloc_of_le (h : 2 ^ 31 ≤ n) (b : Bytes) : alloc n b = .stopped := if_neg (by omega)

theorem readChildren_images {load : Bytes → Load Node} {ts : List Node}
    (h : ∀ t ∈ ts, ∀ left, load (t.image big ++ left) = .ok t left) (left : Bytes) :
    readChildren load ts.length (Node.imageAll big ts ++ left) = .ok ts left := by
  induction ts with
  | nil => rfl
  | cons t ts ih =>
    rw [Node.imageAll, List.append_assoc, List.length_cons, readChildren, h t List.mem_cons_self]
    dsimp only [Load.bind]
    rw [ih fun t ht => h t (List.mem_cons_of_mem _ ht)]

theorem readChildren_stopped {load : Bytes → Load Node} {ts : List Node} (hts : ts.length < k)
    (h : ∀ t ∈ ts, ∀ left, load (t.image big ++ left) = .ok t left) (hleft : load left = .stopped) :
    readChildren load k (Node.imageAll big ts ++ left) = .stopped := by
  induction ts generalizing k with
  | nil =>
    cases k with
    | zero => cases hts
    | succ k =>
      rw [Node.imageAll, List.nil_append, readChildren, hleft]
      rfl
  | cons t ts ih =>
    cases k with
    | zero => cases hts
    | succ k =>
      rw [Node.imageAll, List.append_assoc, readChildren, h t List.mem_cons_self]
      dsimp only [Load.bind]
      rw [ih (by simpa using hts) fun t ht => h t (List.mem_cons_of_mem _ ht)]

theorem readChildren_meets {load : Bytes → Load Node}
    (h : ∀ b, (load b).Meets (fun t left => Wide false t ∧ b = t.image big ++ left) (Ends big b)) (k : Nat)
    (b : Bytes) :
    (readChildren load k b).Meets
      (fun ts left => ts.length = k ∧ (∀ t ∈ ts, Wide false t) ∧ b = Node.imageAll big ts ++ left)
      (∃ ts left, ts.length < k ∧ (∀ t ∈ ts, Wide false t) ∧ b = Node.imageAll big ts ++ left ∧
        Ends big left) := by
  induction k generalizing b with
  | zero => exact ⟨rfl, by simp, rfl⟩
  | succ k ih =>
    refine ((h b).mono (fun _ _ ht => ht) ?_).bind ?_
    · intro hends
      exact ⟨[], b, Nat.succ_pos k, by simp, rfl, hends⟩
    · rintro t left ⟨ht, rfl⟩
      refine ((ih left).mono (fun _ _ hts => hts) ?_).bind ?_
      · rintro ⟨ts, rest, hlen, hts, rfl, hends⟩
        refine ⟨t :: ts, rest, Nat.succ_lt_succ hlen, ?_, ?_, hends⟩
        · exact List.forall_mem_cons.2 ⟨ht, hts⟩
        · rw [Node.imageAll, List.append_assoc]
      · rintro ts rest ⟨hlen, hts, rfl⟩
        refine ⟨by rw [List.length_cons, hlen], List.forall_mem_cons.2 ⟨ht, hts⟩, ?_⟩
        rw [Node.imageAll, List.append_assoc]

theorem length_image_le (big : Bool) {ts : List Node} (h : t ∈ ts) :
    (t.image big).length ≤ (Node.imageAll big ts).length := by
  induction ts with
  | nil => cases h
  | cons u ts ih =>
    rw [Node.imageAll, List.length_append]
    rcases List.mem_cons.1 h with rfl | h
    · exact Nat.le_add_right _ _
    · have := ih h
      omega

theorem bytes_loadedValue (value : Bytes) : (loadedValue value).bytes = value := by
  rw [loadedValue]
  split
  · rename_i h
    exact h.symm
  · rfl

/-- The load of a node after its tag. -/
theorem loadNode_tag (fuel : Nat) {id k n : Nat} {tag : Bytes} (hid : id < 2 ^ 32) (hk : k < 2 ^ 32)
    (hn : n < 2 ^ 32) (htag : tag.length < 2 ^ 32) (left : Bytes) :
    loadNode big root (fuel + 1) (word big id ++ (word big k ++ (word big n ++ (text big tag ++ left)))) =
      (alloc n left).bind fun _ left =>
      (readAttributes big n left).bind fun attrs left =>
      (readString big left).bind fun value left =>
      (alloc k left).bind fun _ left =>
      (readChildren (loadNode big false fuel) k left).bind fun children left =>
        .ok (.mk id (loadedClass root value) tag (loadedValue value) k children n attrs) left := by
  rw [loadNode, readWord_word, Nat.mod_eq_of_lt hid]
  dsimp only [Load.bind]
  rw [readWord_word, Nat.mod_eq_of_lt hk]
  dsimp only [Load.bind]
  rw [readWord_word, Nat.mod_eq_of_lt hn]
  dsimp only [Load.bind]
  rw [readString_text big htag]

/-- The load of a node after its value. -/
theorem loadNode_value (fuel : Nat) {id k : Nat} {tag value : Bytes} {attrs : List (Bytes × Bytes)}
    (hid : id < 2 ^ 32) (hk : k < 2 ^ 32) (htag : tag.length < 2 ^ 32) (hvalue : value.length < 2 ^ 32)
    (hattrs : ∀ a ∈ attrs, a.1.length < 2 ^ 32 ∧ a.2.length < 2 ^ 32) (hn : attrs.length < 2 ^ 31)
    (left : Bytes) :
    loadNode big root (fuel + 1) (word big id ++ (word big k ++ (word big attrs.length ++
        (text big tag ++ (texts big attrs ++ (text big value ++ left)))))) =
      (alloc k left).bind fun _ left =>
      (readChildren (loadNode big false fuel) k left).bind fun children left =>
        .ok (.mk id (loadedClass root value) tag (loadedValue value) k children attrs.length attrs)
          left := by
  rw [loadNode_tag fuel hid hk (by omega) htag, alloc_of_lt hn]
  dsimp only [Load.bind]
  rw [readAttributes_texts big hattrs]
  dsimp only [Load.bind]
  rw [readString_text big hvalue]

/-- A node is loaded from its image, and from no more. -/
theorem loadNode_image (h : Wide root t) {fuel : Nat} (hfuel : (t.image big).length ≤ fuel)
    (left : Bytes) : loadNode big root fuel (t.image big ++ left) = .ok t left := by
  induction h generalizing fuel left with
  | @mk root id tag value children attrs hid htag hvalue hattrs hn hk hchildren ih =>
    rw [Node.image, bytes_loadedValue] at hfuel ⊢
    simp only [List.length_append, length_word] at hfuel
    cases fuel with
    | zero => omega
    | succ fuel =>
      simp only [List.append_assoc]
      rw [loadNode_value fuel hid (by omega) htag hvalue hattrs hn, alloc_of_lt hk]
      dsimp only [Load.bind]
      rw [readChildren_images]
      intro t ht left
      apply ih t ht
      have := length_image_le big ht
      omega

/-- At a count that is negative the load stops. -/
theorem loadNode_ends (h : Ends big b) {fuel : Nat} (hfuel : b.length ≤ fuel) :
    loadNode big root fuel b = .stopped := by
  induction h generalizing fuel root with
  | attributes hid hk hle hn htag =>
    simp only [List.length_append, length_word] at hfuel
    cases fuel with
    | zero => omega
    | succ fuel =>
      rw [loadNode_tag fuel hid hk hn htag, alloc_of_le hle]
      rfl
  | children hid hle hk htag hvalue hattrs hn =>
    simp only [List.length_append, length_word] at hfuel
    cases fuel with
    | zero => omega
    | succ fuel =>
      rw [loadNode_value fuel hid hk htag hvalue hattrs hn, alloc_of_le hle]
      rfl
  | beneath hid hk htag hvalue hattrs hn hbefore hlt _ ih =>
    simp only [List.length_append, length_word] at hfuel
    cases fuel with
    | zero => omega
    | succ fuel =>
      rw [loadNode_value fuel hid (by omega) htag hvalue hattrs hn, alloc_of_lt hk]
      dsimp only [Load.bind]
      rw [readChildren_stopped hlt _ (ih (by omega))]
      intro t ht left
      apply loadNode_image (hbefore t ht)
      have := length_image_le big ht
      omega

/-- A load that goes on has read a node, one that stops has met a count that is negative. -/
theorem loadNode_meets (big root : Bool) (fuel : Nat) (b : Bytes) :
    (loadNode big root fuel b).Meets (fun t left => Wide root t ∧ b = t.image big ++ left)
      (Ends big b) := by
  induction fuel generalizing root b with
  | zero => trivial
  | succ fuel ih =>
    refine ((readWord_meets big b).mono (fun _ _ h => h) False.elim).bind ?_
    rintro id left ⟨hid, rfl⟩
    refine ((readWord_meets big left).mono (fun _ _ h => h) False.elim).bind ?_
    rintro k left ⟨hk, rfl⟩
    refine ((readWord_meets big left).mono (fun _ _ h => h) False.elim).bind ?_
    rintro n left ⟨hn, rfl⟩
    refine ((readString_meets big left).mono (fun _ _ h => h) False.elim).bind ?_
    rintro tag left ⟨htag, rfl⟩
    refine ((alloc_meets n left).mono (fun _ _ h => h) ?_).bind ?_
    · intro hle
      exact Ends.attributes hid hk hle hn htag
    rintro _ left ⟨hn, rfl⟩
    refine ((readAttributes_meets big n left).mono (fun _ _ h => h) False.elim).bind ?_
    rintro attrs left ⟨rfl, hattrs, rfl⟩
    refine ((readString_meets big left).mono (fun _ _ h => h) False.elim).bind ?_
    rintro value left ⟨hvalue, rfl⟩
    refine ((alloc_meets k left).mono (fun _ _ h => h) ?_).bind ?_
    · intro hle
      exact Ends.children hid hle hk htag hvalue hattrs hn
    rintro _ left ⟨hk, rfl⟩
    refine ((readChildren_meets (ih false) k left).mono (fun _ _ h => h) ?_).bind ?_
    · rintro ⟨ts, rest, hlen, hts, rfl, hends⟩
      exact Ends.beneath hid hk htag hvalue hattrs hn hts hlen hends
    · rintro children rest ⟨rfl, hchildren, rfl⟩
      refine ⟨Wide.mk hid htag hvalue hattrs hn hk hchildren, ?_⟩
      rw [Node.image, bytes_loadedValue]
      simp only [List.append_assoc]

/-- Bytes that begin with a count of nodes and with all of a node, or that end the load at a count. -/
def Whole (big : Bool) (bytes : Bytes) : Prop :=
  ∃ nodes left, nodes < 2 ^ 32 ∧ bytes = word big nodes ++ left ∧
    ((∃ t rest, Wide true t ∧ left = t.image big ++ rest) ∨ Ends big left)

/-- The bytes on which the loader stays in its buffer. -/
theorem loadTree_ne_overread (big : Bool) (bytes : Bytes) :
    loadTree big bytes ≠ .overread ↔ Whole big bytes := by
  constructor
  · intro h
    have hword := readWord_meets big bytes
    rw [loadTree] at h
    generalize readWord big bytes = x at h hword
    cases x with
    | overread => exact absurd rfl h
    | stopped => exact hword.elim
    | ok nodes left =>
      refine ⟨nodes, left, hword.1, hword.2, ?_⟩
      have hnode := loadNode_meets big true bytes.length left
      simp only [Load.bind] at h
      generalize loadNode big true bytes.length left = y at h hnode
      cases y with
      | overread => exact absurd rfl h
      | stopped => exact Or.inr hnode
      | ok t rest => exact Or.inl ⟨t, rest, hnode⟩
  · rintro ⟨nodes, left, hnodes, rfl, ⟨t, rest, ht, rfl⟩ | hends⟩
    · rw [loadTree, readWord_word]
      dsimp only [Load.bind]
      rw [loadNode_image ht (by simp only [List.length_append]; omega)]
      exact fun h => by cases h
    · rw [loadTree, readWord_word]
      dsimp only [Load.bind]
      rw [loadNode_ends hends (by simp only [List.length_append]; omega)]
      exact fun h => by cases h

/-! What is written of a tree that the constructors have built. -/

/-- A string that a length in the file can have, without a NUL. -/
def FitsString (s : Bytes) : Prop := 0 ∉ s ∧ s.length + 1 < 2 ^ 32

theorem length_block (s : Bytes) : (block s).length = s.length + 1 := by
  rw [block, List.length_append]
  rfl

theorem strlen_block (h : 0 ∉ s) : strlen (block s) = s.length := by
  have hall : ∀ b ∈ s, decide (b ≠ 0) = true := by
    intro b hb
    rw [decide_eq_true_eq]
    rintro rfl
    exact h hb
  rw [strlen, block, List.takeWhile_append_of_pos hall]
  simp

theorem dumpString_block (big : Bool) (h : 0 ∉ s) : dumpString big (block s) = text big (block s) := by
  rw [dumpString, strlen_block h, ← length_block, List.take_length, text]

/-- A name and a value, as they were given to the constructors. -/
def blocks (attrs : List (Bytes × Bytes)) : List (Bytes × Bytes) :=
  attrs.map fun a => (block a.1, block a.2)

def FitsAttributes (attrs : List (Bytes × Bytes)) : Prop :=
  ∀ a ∈ attrs, FitsString a.1 ∧ FitsString a.2

theorem dump_blocks (big : Bool) {attrs : List (Bytes × Bytes)} (h : FitsAttributes attrs) :
    (blocks attrs).flatMap (fun a => dumpString big a.1 ++ dumpString big a.2) =
      texts big (blocks attrs) := by
  induction attrs with
  | nil => rfl
  | cons a attrs ih =>
    have ha := h a List.mem_cons_self
    have hothers := ih fun a ha => h a (List.mem_cons_of_mem _ ha)
    rw [texts] at hothers ⊢
    rw [blocks, List.map_cons, List.flatMap_cons, List.flatMap_cons, dumpString_block big ha.1.1,
      dumpString_block big ha.2.1]
    rw [blocks] at hothers
    rw [hothers]

theorem length_blocks_lt {attrs : List (Bytes × Bytes)} (h : FitsAttributes attrs) :
    ∀ a ∈ blocks attrs, a.1.length < 2 ^ 32 ∧ a.2.length < 2 ^ 32 := by
  intro _ hmem
  obtain ⟨a, ha, rfl⟩ := List.mem_map.1 hmem
  rw [length_block, length_block]
  exact ⟨(h a ha).1.2, (h a ha).2.2⟩

/-- A tree within the field widths of the file. A node that has a value takes no children. -/
inductive Spec.Fits : Spec → Prop
  | mk {tag : Bytes} {attrs more : List (Bytes × Bytes)} {value : Option Bytes} {children : List Spec} :
      FitsString tag → FitsAttributes (attrs ++ more) → (∀ v ∈ value, FitsString v) →
      (attrs ++ more).length < 2 ^ 31 → children.length < 2 ^ 31 → (value.isSome → children = []) →
      (∀ c ∈ children, c.Fits) → Fits (.mk tag attrs more value children)

/-- The attributes in memory: the first that is added takes the place of those at the construction. -/
def kept (attrs more : List (Bytes × Bytes)) : List (Bytes × Bytes) :=
  if more = [] then blocks attrs else blocks more

theorem take_kept (attrs more : List (Bytes × Bytes)) : (kept attrs more).take more.length = blocks more := by
  rw [kept]
  split
  · rename_i h
    rw [h]
    rfl
  · exact List.take_of_length_le (by rw [blocks, List.length_map])

theorem foldl_addAttribute (id k : Nat) (c : NodeClass) (tag : Bytes) (v : Value) (ts : List Node)
    (attrs more : List (Bytes × Bytes)) :
    more.foldl Node.addAttribute (.mk id c tag v k ts 0 (blocks attrs)) =
      .mk id c tag v k ts more.length (kept attrs more) := by
  induction more using List.reverseRecOn with
  | nil => rfl
  | append_singleton more a ih =>
    rw [List.foldl_append, ih, List.foldl_cons, List.foldl_nil, Node.addAttribute, take_kept,
      List.length_append, kept, if_neg (by simp), blocks, blocks, List.map_append]
    rfl

theorem foldl_addChild (id k n : Nat) (c : NodeClass) (tag : Bytes) (v : Value) (ts us : List Node)
    (attrs : List (Bytes × Bytes)) :
    us.foldl Node.addChild (.mk id c tag v k ts n attrs) =
      .mk id c tag v (k + us.length) (ts ++ us) n attrs := by
  induction us generalizing k ts with
  | nil => rw [List.append_nil]; rfl
  | cons u us ih =>
    rw [List.foldl_cons, Node.addChild, ih, List.append_assoc, List.length_cons, Nat.add_assoc,
      Nat.add_comm 1]
    rfl

theorem length_buildAll (ss : List Spec) : (Spec.buildAll ss).length = ss.length := by
  induction ss with
  | nil => rfl
  | cons s ss ih => rw [Spec.buildAll, List.length_cons, ih, List.length_cons]

/-- `nodeclass` as the constructor sets it. -/
def classOf (root : Bool) (value : Option Bytes) : NodeClass :=
  if value.isSome then .leaf else if root then .root else .inter

/-- `value` as the constructor sets it. -/
def valueOf : Option Bytes → Value
  | some v => .str (block v)
  | none => .null

theorem build_eq (root : Bool) (tag : Bytes) (attrs more : List (Bytes × Bytes)) (value : Option Bytes)
    (children : List Spec) :
    (Spec.mk tag attrs more value children).build root =
      .mk 0 (classOf root value) (block tag) (valueOf value) children.length (Spec.buildAll children)
        more.length (kept attrs more) := by
  have hcreate : createNode root tag attrs value =
      .mk 0 (classOf root value) (block tag) (valueOf value) 0 [] 0 (blocks attrs) := by
    cases value <;> rfl
  rw [Spec.build, hcreate, foldl_addAttribute, foldl_addChild, length_buildAll, Nat.zero_add,
    List.nil_append]

mutual
/-- What the loader makes of a node: no value is set where there is none, and of the attributes there are
`num_attributes`. -/
def Node.reload : Node → Node
  | .mk id c tag value k children n attrs =>
    .mk id c tag (if value = .null then .unset else value) k (reloadAll children) n (attrs.take n)

def Node.reloadAll : List Node → List Node
  | [] => []
  | t :: ts => t.reload :: reloadAll ts
end

theorem length_reloadAll (ts : List Node) : (Node.reloadAll ts).length = ts.length := by
  induction ts with
  | nil => rfl
  | cons t ts ih => rw [Node.reloadAll, List.length_cons, ih, List.length_cons]

theorem length_labelAll (l : Nat) (ts : List Node) : (Node.labelAll l ts).1.length = ts.length := by
  induction ts generalizing l with
  | nil => rfl
  | cons t ts ih => rw [Node.labelAll, List.length_cons, ih, List.length_cons]

theorem label_mk (l id k n : Nat) (c : NodeClass) (tag : Bytes) (v : Value) (ts : List Node)
    (attrs : List (Bytes × Bytes)) :
    ((Node.mk id c tag v k ts n attrs).label l).1 =
      .mk (l % 2 ^ 32) c tag v k (Node.labelAll (l + 1) ts).1 n attrs := by
  rw [Node.label]

/-- What is written of the children. -/
theorem dumpAll_build (big : Bool) {ss : List Spec}
    (h : ∀ s ∈ ss, ∀ l, ((s.build false).label l).1.dump big = ((s.build false).label l).1.reload.image big ∧
      Wide false ((s.build false).label l).1.reload) (l : Nat) :
    Node.dumpAll big (Node.labelAll l (Spec.buildAll ss)).1 =
        Node.imageAll big (Node.reloadAll (Node.labelAll l (Spec.buildAll ss)).1) ∧
      ∀ t ∈ Node.reloadAll (Node.labelAll l (Spec.buildAll ss)).1, Wide false t := by
  induction ss generalizing l with
  | nil => exact ⟨rfl, by simp [Spec.buildAll, Node.labelAll, Node.reloadAll]⟩
  | cons s ss ih =>
    have hs := h s List.mem_cons_self l
    have hothers := ih (fun s hs => h s (List.mem_cons_of_mem _ hs)) (l + ((s.build false).label l).2)
    rw [Spec.buildAll, Node.labelAll]
    dsimp only
    rw [Node.dumpAll, Node.reloadAll, Node.imageAll, hs.1, hothers.1]
    exact ⟨rfl, List.forall_mem_cons.2 ⟨hs.2, hothers.2⟩⟩

theorem dump_valueOf (big : Bool) {value : Option Bytes} (h : ∀ v ∈ value, FitsString v) (root : Bool) :
    ∃ bytes, bytes.length < 2 ^ 32 ∧ classOf root value = loadedClass root bytes ∧
      (if valueOf value = .null then .unset else valueOf value) = loadedValue bytes ∧
      dumpValue big (valueOf value) = text big bytes := by
  cases value with
  | none => exact ⟨[], by simp, rfl, rfl, by simp [valueOf, dumpValue, text]⟩
  | some v =>
    have hv := h v rfl
    have hblock : block v ≠ [] := by simp [block]
    refine ⟨block v, by rw [length_block]; exact hv.2, ?_, ?_, ?_⟩
    · simp [classOf, loadedClass, hblock]
    · simp [valueOf, loadedValue, hblock]
    · exact dumpString_block big hv.1

theorem dump_build (big root : Bool) {s : Spec} (h : s.Fits) (l : Nat) :
    ((s.build root).label l).1.dump big = ((s.build root).label l).1.reload.image big ∧
      Wide root ((s.build root).label l).1.reload := by
  induction h generalizing root l with
  | @mk tag attrs more value children htag hattrs hvalue hn hk _ hchildren ih =>
    have hbelow := dumpAll_build big (fun c hc l => ih c hc false l) (l + 1)
    obtain ⟨bytes, hbytes, hclass, hloaded, hdump⟩ := dump_valueOf big hvalue root
    have hmore : FitsAttributes more := fun a ha => hattrs a (List.mem_append_right _ ha)
    rw [List.length_append] at hn
    have hlen : (blocks more).length = more.length := List.length_map _
    have hcount : (Node.reloadAll (Node.labelAll (l + 1) (Spec.buildAll children)).1).length =
        children.length := by
      rw [length_reloadAll, length_labelAll, length_buildAll]
    rw [build_eq, label_mk, Node.reload, take_kept, hloaded, hclass, ← hcount, ← hlen]
    constructor
    · rw [Node.dump, Node.image, hlen, take_kept, dump_blocks big hmore, dumpString_block big htag.1, hdump,
        bytes_loadedValue, hbelow.1]
      simp only [List.append_assoc]
    · refine Wide.mk (Nat.mod_lt _ (by decide)) ?_ hbytes (length_blocks_lt hmore) (by omega) (by omega)
        hbelow.2
      rw [length_block]
      exact htag.2

/-- The load of what is written of a tree takes every byte, and makes the tree that is in memory, less
what `reload` loses. -/
theorem loadTree_printTree (big : Bool) {s : Spec} (h : s.Fits) :
    loadTree big (printTree big (s.build true)) = .ok ((s.build true).label 0).1.reload [] := by
  obtain ⟨hdump, hwide⟩ := dump_build big true h 0
  rw [loadTree, printTree, readWord_word, hdump]
  dsimp only [Load.bind]
  rw [← List.append_nil (((s.build true).label 0).1.reload.image big)]
  apply loadNode_image hwide
  simp only [List.length_append]
  omega

/-- The load of what is written is the tree that was meant, and takes every byte. -/
def RoundTrip (big : Bool) (s : Spec) : Prop :=
  loadTree big (printTree big (s.build true)) = .ok ((s.meant true).label 0).1 []

/-- One node that has a value, and no attributes at its construction. -/
def Spec.Plain : Spec → Prop
  | .mk _ attrs _ value _ => attrs = [] ∧ value.isSome

theorem roundTrip_iff (big : Bool) {s : Spec} (h : s.Fits) : RoundTrip big s ↔ s.Plain := by
  obtain ⟨tag, attrs, more, value, children⟩ := s
  have hmeant : (Spec.mk tag attrs more value children).meant true =
      .mk 0 (classOf true value) (block tag) (valueOf value) children.length (Spec.meantAll children)
        (attrs ++ more).length (blocks (attrs ++ more)) := by
    cases value <;> rfl
  rw [RoundTrip, loadTree_printTree big h, hmeant, build_eq, label_mk, label_mk, Node.reload, take_kept,
    Load.ok.injEq, Node.mk.injEq, Spec.Plain]
  constructor
  · rintro ⟨⟨_, _, _, hvalue, _, _, hnum, _⟩, _⟩
    refine ⟨List.length_eq_zero_iff.1 ?_, ?_⟩
    · rw [List.length_append] at hnum
      omega
    · cases value with
      | none => cases hvalue
      | some v => rfl
  · rintro ⟨rfl, hvalue⟩
    obtain ⟨v, rfl⟩ := Option.isSome_iff_exists.1 hvalue
    cases h with
    | mk _ _ _ _ _ hchildren _ =>
    obtain rfl := hchildren rfl
    exact ⟨⟨rfl, rfl, rfl, rfl, rfl, rfl, rfl, rfl⟩, rfl⟩

/-- The trees that come back from a tuning file, and the files that are read within their bytes. -/
theorem tuning_file (big : Bool) :
    (∀ s : Spec, s.Fits → (RoundTrip big s ↔ s.Plain)) ∧
      ∀ bytes, loadTree big bytes ≠ .overread ↔ Whole big bytes :=
  ⟨fun _ h => roundTrip_iff big h, loadTree_ne_overread big⟩

/-- A root without a value, a leaf with an attribute at its construction, and a file of three bytes. -/
theorem tuning_file_lost :
    ((Spec.mk [65] [] [] none []).Fits ∧ ¬ RoundTrip false (.mk [65] [] [] none [])) ∧
      ((Spec.mk [65] [([66], [67])] [] (some [68]) []).Fits ∧
        ¬ RoundTrip false (.mk [65] [([66], [67])] [] (some [68]) [])) ∧
      loadTree false [0, 0, 0] = .overread := by
  have hbare : (Spec.mk [65] [] [] none []).Fits := by
    constructor <;> simp [FitsString, FitsAttributes]
  have hleaf : (Spec.mk [65] [([66], [67])] [] (some [68]) []).Fits := by
    constructor <;> simp [FitsString, FitsAttributes]
  refine ⟨⟨hbare, ?_⟩, ⟨hleaf, ?_⟩, rfl⟩
  · rw [roundTrip_iff false hbare]
    exact fun h => absurd h.2 (by decide)
  · rw [roundTrip_iff false hleaf]
    exact fun h => absurd h.1 (by decide)

end Gasnet.Myxml
