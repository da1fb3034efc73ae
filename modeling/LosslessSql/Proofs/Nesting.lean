import LosslessSql.Node.Builder
import LosslessSql.Proofs.Node.Lexemes

/-!
# Nested words

The delimiters of a text, read as a word over three pairs: `Nested` are the words in which every
delimiter has its partner, `Shallow` those in which no more than so many are open at once.  Both speak
of kinds of tokens only; the trees come in below.

* `nested_lexemesAll`, `exists_tree_of_nested`: **the nested words are those of fenced trees.**
* `shallow_lexemesAll_iff`: **as many delimiters are open at once as the tree is deep.**
-/

namespace LosslessSql

/-- Every opening delimiter is closed by its partner, and between the two the word is nested too.
Tokens that are no delimiters may stand anywhere. -/
inductive Nested : List TokenKind → Prop
  | nil : Nested []
  | other {k : TokenKind} {w : List TokenKind} : k.isOpening = false → k.isClosing = false →
      Nested w → Nested (k :: w)
  | pair (d : Delimiter) {v w : List TokenKind} : Nested v → Nested w →
      Nested (.opening d :: (v ++ .closing d :: w))

def opens (w : List TokenKind) : Nat :=
  w.countP TokenKind.isOpening

def closes (w : List TokenKind) : Nat :=
  w.countP TokenKind.isClosing

/-- At no place of a word more than `limit` delimiters are open. -/
def Shallow (limit : Nat) (w : List TokenKind) : Prop :=
  ∀ u, u <+: w → opens u ≤ closes u + limit

/-- A word that can be completed to a nested word without too many open delimiters. -/
def Extendable (w : List TokenKind) : Prop :=
  ∃ v, Nested (w ++ v) ∧ Shallow maxDepth (w ++ v)

@[simp] theorem opens_nil : opens [] = 0 := rfl

@[simp] theorem closes_nil : closes [] = 0 := rfl

@[simp] theorem opens_append (v w : List TokenKind) : opens (v ++ w) = opens v + opens w := by
  simp [opens]

@[simp] theorem closes_append (v w : List TokenKind) : closes (v ++ w) = closes v + closes w := by
  simp [closes]

@[simp] theorem opens_opening (d : Delimiter) (w : List TokenKind) :
    opens (.opening d :: w) = opens w + 1 :=
  List.countP_cons_of_pos rfl

@[simp] theorem closes_opening (d : Delimiter) (w : List TokenKind) :
    closes (.opening d :: w) = closes w :=
  List.countP_cons_of_neg Bool.false_ne_true

@[simp] theorem opens_closing (d : Delimiter) (w : List TokenKind) :
    opens (.closing d :: w) = opens w :=
  List.countP_cons_of_neg Bool.false_ne_true

@[simp] theorem closes_closing (d : Delimiter) (w : List TokenKind) :
    closes (.closing d :: w) = closes w + 1 :=
  List.countP_cons_of_pos rfl

/-! ### Nested words -/

theorem Nested.append {v w : List TokenKind} (hv : Nested v) (hw : Nested w) : Nested (v ++ w) := by
  induction hv with
  | nil => exact hw
  | other ho hc _ ih => exact .other ho hc ih
  | pair d hv _ _ ih =>
    rw [List.cons_append, List.append_assoc, List.cons_append]
    exact .pair d hv ih

theorem Nested.opens_eq {w : List TokenKind} (h : Nested w) : opens w = closes w := by
  induction h with
  | nil => rfl
  | other ho hc _ ih =>
    rw [opens, closes, List.countP_cons_of_neg (by simp [ho]), List.countP_cons_of_neg (by simp [hc])]
    exact ih
  | pair d _ _ ihv ihw =>
    simp only [opens_opening, closes_opening, opens_append, closes_append, opens_closing,
      closes_closing]
    omega

theorem shallow_nil (limit : Nat) : Shallow limit [] := by
  intro u hu
  rw [List.prefix_nil.mp hu]
  exact Nat.zero_le _

theorem shallow_append_iff {limit : Nat} {v w : List TokenKind} (hv : opens v = closes v) :
    Shallow limit (v ++ w) ↔ Shallow limit v ∧ Shallow limit w := by
  refine ⟨?_, ?_⟩
  · intro h
    refine ⟨fun u hu => h u (hu.trans (List.prefix_append v w)), fun u hu => ?_⟩
    have hvu := h (v ++ u) ((List.prefix_append_right_inj v).mpr hu)
    rw [opens_append, closes_append] at hvu
    omega
  · rintro ⟨hsv, hsw⟩ u ⟨rest, happ⟩
    rcases List.append_eq_append_iff.mp happ with ⟨as, rfl, _⟩ | ⟨bs, rfl, hw⟩
    · exact hsv u (List.prefix_append u as)
    · have hbs := hsw bs ⟨rest, hw.symm⟩
      rw [opens_append, closes_append]
      omega

theorem shallow_pair_iff {limit : Nat} {v : List TokenKind} (hv : opens v = closes v)
    (d : Delimiter) :
    Shallow limit (.opening d :: (v ++ [.closing d])) ↔ 0 < limit ∧ Shallow (limit - 1) v := by
  refine ⟨?_, ?_⟩
  · intro h
    have hone := h [.opening d] ⟨v ++ [.closing d], rfl⟩
    rw [opens_opening, closes_opening, opens_nil, closes_nil] at hone
    refine ⟨by omega, fun u hu => ?_⟩
    have hdu := h (.opening d :: u)
      ((List.prefix_cons_inj _).mpr (hu.trans (List.prefix_append v [.closing d])))
    rw [opens_opening, closes_opening] at hdu
    omega
  · rintro ⟨hpos, h⟩ u hu
    rcases List.prefix_cons_iff.mp hu with rfl | ⟨u', rfl, hu'⟩
    · exact Nat.zero_le _
    · rw [opens_opening, closes_opening]
      rcases List.prefix_concat_iff.mp hu' with rfl | hpre
      · rw [opens_append, closes_append, opens_closing, closes_closing, opens_nil, closes_nil]
        omega
      · have hle := h u' hpre
        omega

/-! ### Lexemes by their kinds -/

theorem Leaf.not_delimiter_tokenKind (l : Leaf) :
    l.tokenKind.isOpening = false ∧ l.tokenKind.isClosing = false := by
  cases l <;> exact ⟨rfl, rfl⟩

namespace Lexeme

theorem eq_leaf_of_tokenKind {x : Lexeme} (ho : x.tokenKind.isOpening = false)
    (hc : x.tokenKind.isClosing = false) : ∃ l, x = .leaf l := by
  cases x with
  | leaf l => exact ⟨l, rfl⟩
  | opening d => exact absurd ho (by simp [tokenKind, TokenKind.isOpening])
  | closing d => exact absurd hc (by simp [tokenKind, TokenKind.isClosing])

theorem eq_opening_of_tokenKind {x : Lexeme} {d : Delimiter} (h : x.tokenKind = .opening d) :
    x = .opening d := by
  cases x with
  | leaf l => cases l <;> exact absurd h (by simp [tokenKind, Leaf.tokenKind])
  | opening c => exact congrArg Lexeme.opening (TokenKind.opening.inj h)
  | closing c => exact absurd h (by simp [tokenKind])

theorem eq_closing_of_tokenKind {x : Lexeme} {d : Delimiter} (h : x.tokenKind = .closing d) :
    x = .closing d := by
  cases x with
  | leaf l => cases l <;> exact absurd h (by simp [tokenKind, Leaf.tokenKind])
  | opening c => exact absurd h (by simp [tokenKind])
  | closing c => exact congrArg Lexeme.closing (TokenKind.closing.inj h)

theorem exists_tokenKind_eq (k : TokenKind) : ∃ x : Lexeme, x.tokenKind = k := by
  cases k with
  | text => exact ⟨.leaf (.text ""), rfl⟩
  | space => exact ⟨.leaf (.space ""), rfl⟩
  | quoted q => exact ⟨.leaf (.quoted q ""), rfl⟩
  | lineComment => exact ⟨.leaf (.lineComment ""), rfl⟩
  | blockComment => exact ⟨.leaf (.blockComment ""), rfl⟩
  | cast => exact ⟨.leaf .cast, rfl⟩
  | ordinal o => exact ⟨.leaf (.ordinal o), rfl⟩
  | named => exact ⟨.leaf (.named ""), rfl⟩
  | opening d => exact ⟨.opening d, rfl⟩
  | closing d => exact ⟨.closing d, rfl⟩

end Lexeme

/-! ### The word of a tree -/

namespace Node

variable {φ : Type}

theorem nested_lexemesAll_of_forall {ns : List (Node φ)}
    (h : ∀ n ∈ ns, Nested (n.lexemes.map Lexeme.tokenKind)) :
    Nested ((lexemesAll ns).map Lexeme.tokenKind) := by
  induction ns with
  | nil => exact .nil
  | cons n ns ih =>
    rw [List.forall_mem_cons] at h
    rw [lexemesAll, List.map_append]
    exact h.1.append (ih h.2)

theorem map_tokenKind_fence (d : Delimiter) (children : List (Node φ)) :
    (lexemes (.group (some d) children)).map Lexeme.tokenKind =
      .opening d :: ((lexemesAll children).map Lexeme.tokenKind ++ [.closing d]) := by
  rw [lexemes_fence, List.map_cons, List.map_append]
  rfl

theorem nested_lexemes {n : Node φ} (h : n.Fenced) : Nested (n.lexemes.map Lexeme.tokenKind) := by
  induction n using ind with
  | leaf l =>
    obtain ⟨ho, hc⟩ := l.not_delimiter_tokenKind
    exact .other ho hc .nil
  | fragment f => exact absurd h (by simp [Fenced])
  | group fence children ih =>
    obtain ⟨d, rfl⟩ := Option.isSome_iff_exists.mp h.1
    rw [map_tokenKind_fence]
    refine .pair d (nested_lexemesAll_of_forall fun n hn => ?_) .nil
    exact ih n hn (fencedAll_iff.mp h.2 n hn)

/-- **The word of a fenced tree is nested.** -/
theorem nested_lexemesAll {ns : List (Node φ)} (h : FencedAll ns) :
    Nested ((lexemesAll ns).map Lexeme.tokenKind) :=
  nested_lexemesAll_of_forall fun n hn => nested_lexemes (fencedAll_iff.mp h n hn)

/-- **Lexemes whose word is nested are those of a fenced tree.** -/
theorem exists_tree_of_nested {w : List TokenKind} (h : Nested w) {xs : List Lexeme}
    (hxs : xs.map Lexeme.tokenKind = w) :
    ∃ t : List (Node φ), FencedAll t ∧ lexemesAll t = xs := by
  induction h generalizing xs with
  | nil =>
    rw [List.map_eq_nil_iff] at hxs
    exact ⟨[], trivial, hxs.symm⟩
  | other ho hc _ ih =>
    obtain ⟨x, ys, rfl, rfl, hys⟩ := List.map_eq_cons_iff.mp hxs
    obtain ⟨l, rfl⟩ := Lexeme.eq_leaf_of_tokenKind ho hc
    obtain ⟨t, hf, rfl⟩ := ih hys
    exact ⟨.leaf l :: t, ⟨trivial, hf⟩, rfl⟩
  | pair d _ _ ihv ihw =>
    obtain ⟨x, ys, rfl, hx, hys⟩ := List.map_eq_cons_iff.mp hxs
    obtain ⟨vs, zs, rfl, hvs, hzs⟩ := List.map_eq_append_iff.mp hys
    obtain ⟨y, ws, rfl, hy, hws⟩ := List.map_eq_cons_iff.mp hzs
    obtain rfl := Lexeme.eq_opening_of_tokenKind hx
    obtain rfl := Lexeme.eq_closing_of_tokenKind hy
    obtain ⟨children, hchildren, rfl⟩ := ihv hvs
    obtain ⟨t, ht, rfl⟩ := ihw hws
    refine ⟨.group (some d) children :: t, ⟨⟨rfl, hchildren⟩, ht⟩, ?_⟩
    rw [lexemesAll, lexemes_fence, List.cons_append, List.append_assoc, List.singleton_append]

/-! ### As many open delimiters as the tree is deep -/

theorem shallow_lexemesAll_iff_of_forall {limit : Nat} {ns : List (Node φ)} (hf : FencedAll ns)
    (h : ∀ n ∈ ns, Shallow limit (n.lexemes.map Lexeme.tokenKind) ↔ n.depth ≤ limit) :
    Shallow limit ((lexemesAll ns).map Lexeme.tokenKind) ↔ depthAll ns ≤ limit := by
  induction ns with
  | nil => exact iff_of_true (shallow_nil limit) (Nat.zero_le _)
  | cons n ns ih =>
    rw [List.forall_mem_cons] at h
    rw [lexemesAll, List.map_append, shallow_append_iff (nested_lexemes hf.1).opens_eq, h.1,
      ih hf.2 h.2, depthAll, Nat.max_le]

theorem shallow_lexemes_iff {n : Node φ} (hf : n.Fenced) (limit : Nat) :
    Shallow limit (n.lexemes.map Lexeme.tokenKind) ↔ n.depth ≤ limit := by
  induction n using ind generalizing limit with
  | leaf l =>
    refine iff_of_true (fun u hu => ?_) (Nat.zero_le _)
    have hnone : opens [l.tokenKind] = 0 := by
      rw [opens, List.countP_cons_of_neg (by simp [l.not_delimiter_tokenKind]), List.countP_nil]
    have hle : opens u ≤ opens [l.tokenKind] := hu.sublist.countP_le
    omega
  | fragment f => exact absurd hf (by simp [Fenced])
  | group fence children ih =>
    obtain ⟨d, rfl⟩ := Option.isSome_iff_exists.mp hf.1
    have hbody : Shallow (limit - 1) ((lexemesAll children).map Lexeme.tokenKind) ↔
        depthAll children ≤ limit - 1 :=
      shallow_lexemesAll_iff_of_forall hf.2 fun n hn =>
        ih n hn (fencedAll_iff.mp hf.2 n hn) (limit - 1)
    rw [map_tokenKind_fence, shallow_pair_iff (nested_lexemesAll hf.2).opens_eq, hbody, depth_fence]
    omega

/-- **As many delimiters are open at once as the tree is deep.** -/
theorem shallow_lexemesAll_iff {ns : List (Node φ)} (hf : FencedAll ns) (limit : Nat) :
    Shallow limit ((lexemesAll ns).map Lexeme.tokenKind) ↔ depthAll ns ≤ limit :=
  shallow_lexemesAll_iff_of_forall hf fun n hn =>
    shallow_lexemes_iff (fencedAll_iff.mp hf n hn) limit

end Node

end LosslessSql
