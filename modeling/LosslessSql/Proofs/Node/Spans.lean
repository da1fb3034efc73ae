import LosslessSql.Proofs.Node.Putting

/-!
# The bytes of a slot

A node does not say where its text stands.  But a path does: of the groups along it, it passes over the
opening delimiter and the nodes before the one that it goes into, and leaves the nodes behind that one and
the closing delimiter for later.  So the text of a tree is

    textBefore path n ++ (m.spelling ++ textBehind path n),

with `m` for the node in the slot, and the two outer parts do not depend on `m`.

* `spelling_put?`: **whatever is put into a slot stands between the same two texts.**
* `slotSpan?`: the bytes between them.
* `within_of_append`, `apart_of_lt`: **the bytes of two slots**: those of a slot below another lie inside
  its bytes, and those of a slot behind another come after its bytes.
* `exists_lexemes_around`: in a tree without fragments and bare groups, both texts are whole lexemes.
-/

namespace LosslessSql

/-- One span lies inside another, with bytes of the other on both sides. -/
def Span.Within (inner outer : Span) : Prop :=
  outer.start < inner.start ∧ inner.stop < outer.stop

def Span.Apart (a b : Span) : Prop :=
  a.stop ≤ b.start ∨ b.stop ≤ a.start

namespace Node

variable {φ : Type} [Fragment φ]

def textBefore : Path → Node φ → List Char
  | [], _ => []
  | i :: path, .group fence children =>
    fenceOpening fence ++ (spellAll (children.take i) ++ children[i]?.elim [] (textBefore path))
  | _ :: _, _ => []

def textBehind : Path → Node φ → List Char
  | [], _ => []
  | i :: path, .group fence children =>
    children[i]?.elim [] (textBehind path) ++ (spellAll (children.drop (i + 1)) ++ fenceClosing fence)
  | _ :: _, _ => []

/-- The bytes of the slot at the end of a path, in the text of the whole node; `none` if the path leads
nowhere. -/
def slotSpan? (path : Path) (n : Node φ) : Option Span :=
  (n.get? path).map fun m =>
    ⟨byteSize (textBefore path n), byteSize (textBefore path n) + byteSize m.spelling⟩

/-! ### The text around a slot -/

theorem spellAll_set {ns : List (Node φ)} {i : Nat} {old : Node φ} (h : ns[i]? = some old) (n : Node φ) :
    spellAll (ns.set i n) = spellAll (ns.take i) ++ (n.spelling ++ spellAll (ns.drop (i + 1))) := by
  obtain ⟨hi, _⟩ := List.getElem?_eq_some_iff.mp h
  rw [List.set_eq_take_append_cons_drop, if_pos hi, spellAll_append, spellAll]

/-- **Whatever is put into a slot stands between the same two texts.** -/
theorem spelling_put? {new n n' : Node φ} {path : Path} (h : put? new path n = some n') :
    n'.spelling = textBefore path n ++ (new.spelling ++ textBehind path n) := by
  induction path generalizing n n' with
  | nil =>
    obtain rfl : new = n' := Option.some.inj h
    rw [textBefore, textBehind, List.append_nil, List.nil_append]
  | cons i path ih =>
    obtain ⟨fence, children, child, child', rfl, hchild, hput, rfl⟩ := put?_cons_eq_some_iff.mp h
    rw [spelling, spellAll_set hchild, ih hput, textBefore, textBehind, hchild]
    simp only [Option.elim_some, List.append_assoc]

theorem spelling_get? {n m : Node φ} {path : Path} (h : n.get? path = some m) :
    n.spelling = textBefore path n ++ (m.spelling ++ textBehind path n) :=
  spelling_put? (put?_get? h)

theorem textBefore_append {n m : Node φ} {path : Path} (h : n.get? path = some m) (rest : Path) :
    textBefore (path ++ rest) n = textBefore path n ++ textBefore rest m := by
  induction path generalizing n with
  | nil =>
    obtain rfl : n = m := Option.some.inj h
    rfl
  | cons i path ih =>
    obtain ⟨fence, children, child, rfl, hchild, hrest⟩ := get?_cons_eq_some_iff.mp h
    rw [List.cons_append, textBefore, textBefore, hchild, Option.elim_some, Option.elim_some, ih hrest]
    simp only [List.append_assoc]

theorem slotSpan?_eq_some_iff {n : Node φ} {path : Path} {span : Span} :
    slotSpan? path n = some span ↔ ∃ m, n.get? path = some m ∧
      ⟨byteSize (textBefore path n), byteSize (textBefore path n) + byteSize m.spelling⟩ = span :=
  Option.map_eq_some_iff

/-! ### Two slots -/

/-- **The bytes below a fenced group lie between its delimiters.** -/
theorem within_of_append {n : Node φ} {d : Delimiter} {children : List (Node φ)} {path rest : Path}
    {outer inner : Span} (h : n.get? path = some (.group (some d) children)) (hrest : rest ≠ [])
    (houter : slotSpan? path n = some outer) (hinner : slotSpan? (path ++ rest) n = some inner) :
    inner.Within outer := by
  obtain ⟨_, hgroup, rfl⟩ := slotSpan?_eq_some_iff.mp houter
  obtain ⟨m, hm, rfl⟩ := slotSpan?_eq_some_iff.mp hinner
  obtain rfl := Option.some.inj (h.symm.trans hgroup)
  rw [get?_append, h, Option.bind_some] at hm
  have hsize := congrArg byteSize (spelling_get? hm)
  cases rest with
  | nil => exact absurd rfl hrest
  | cons i rest =>
    have hopen := d.opening.utf8Size_pos
    have hclose := d.closing.utf8Size_pos
    rw [textBefore_append h]
    simp only [textBefore, textBehind, fenceOpening, fenceClosing, byteSize_append, Option.map_some,
      Option.toList_some, byteSize_cons, byteSize_nil] at hsize ⊢
    constructor
    · show byteSize _ < byteSize _ + _
      omega
    · show _ + byteSize _ < _ + byteSize _
      omega

theorem byteSize_spellAll_take {ns : List (Node φ)} {i j : Nat} {n : Node φ} (h : ns[i]? = some n)
    (hij : i < j) :
    byteSize (spellAll (ns.take i)) + byteSize n.spelling ≤ byteSize (spellAll (ns.take j)) := by
  obtain ⟨hi, rfl⟩ := List.getElem?_eq_some_iff.mp h
  obtain ⟨between, hbetween⟩ := List.take_prefix_take_left (l := ns) (Nat.succ_le_of_lt hij)
  rw [← hbetween, List.take_add_one, List.getElem?_eq_getElem hi, spellAll_append, spellAll_append,
    byteSize_append, byteSize_append, Option.toList_some, spellAll, spellAll, List.append_nil]
  omega

/-- **The bytes of a slot end before those of a slot that comes later** in the order of the document and
is not below it. -/
theorem apart_of_lt {n m m' : Node φ} {p q : Path} (hp : n.get? p = some m) (hq : n.get? q = some m')
    (hlt : p < q) (hpq : ¬ p <+: q) :
    byteSize (textBefore p n) + byteSize m.spelling ≤ byteSize (textBefore q n) := by
  induction p generalizing n q with
  | nil => exact absurd List.nil_prefix hpq
  | cons i p ih =>
    cases q with
    | nil => exact absurd hlt (List.not_lt_nil _)
    | cons j q =>
      obtain ⟨fence, children, child, rfl, hchild, hp⟩ := get?_cons_eq_some_iff.mp hp
      obtain ⟨_, _, child', hgroup, hchild', hq⟩ := get?_cons_eq_some_iff.mp hq
      obtain ⟨rfl, rfl⟩ := group.inj hgroup
      simp only [textBefore, hchild, hchild', Option.elim_some, byteSize_append]
      rcases List.cons_lt_cons_iff.mp hlt with hij | ⟨rfl, hrest⟩
      · -- The slots are below different nodes, and the text before the later one holds all of the first.
        have hsize := congrArg byteSize (spelling_get? hp)
        have htake := byteSize_spellAll_take hchild hij
        simp only [byteSize_append] at hsize
        omega
      · obtain rfl := Option.some.inj (hchild.symm.trans hchild')
        have hle := ih hp hq hrest (fun h => hpq (List.cons_prefix_cons.mpr ⟨rfl, h⟩))
        omega

/-! ### Lexemes around a slot -/

theorem spelled_opening (fence : Option Delimiter) :
    spelled (fence.map .opening).toList = fenceOpening fence := by
  cases fence <;> rfl

omit [Fragment φ] in
theorem Fenced.of_get? {n m : Node φ} {path : Path} (h : n.Fenced) (hget : n.get? path = some m) :
    m.Fenced := by
  induction path generalizing n with
  | nil =>
    obtain rfl : n = m := Option.some.inj hget
    exact h
  | cons i path ih =>
    obtain ⟨fence, children, child, rfl, hchild, hrest⟩ := get?_cons_eq_some_iff.mp hget
    exact ih (fencedAll_iff.mp h.2 child (List.mem_of_getElem? hchild)) hrest

/-- One step up: the lexemes around a slot of a node, and those around the node in its group. -/
theorem lexemes_around_step {children : List (Node φ)} (h : FencedAll children) {i : Nat}
    {child m : Node φ} (hchild : children[i]? = some child) {path : Path} {xs ys : List Lexeme}
    (hlexemes : child.lexemes = xs ++ (m.lexemes ++ ys)) (hbefore : spelled xs = textBefore path child)
    (fence : Option Delimiter) :
    ∃ xs' ys', lexemes (.group fence children) = xs' ++ (m.lexemes ++ ys') ∧
      spelled xs' = textBefore (i :: path) (.group fence children) := by
  obtain ⟨hi, rfl⟩ := List.getElem?_eq_some_iff.mp hchild
  have hfront : FencedAll (children.take i) :=
    fencedAll_iff.mpr fun n hn => fencedAll_iff.mp h n (List.mem_of_mem_take hn)
  have hsplit : lexemesAll children =
      lexemesAll (children.take i) ++ (children[i].lexemes ++ lexemesAll (children.drop (i + 1))) := by
    rw [← lexemesAll, ← List.drop_eq_getElem_cons hi, ← lexemesAll_append, List.take_append_drop]
  refine ⟨(fence.map .opening).toList ++ (lexemesAll (children.take i) ++ xs),
    ys ++ (lexemesAll (children.drop (i + 1)) ++ (fence.map .closing).toList), ?_, ?_⟩
  · rw [lexemes, hsplit, hlexemes]
    simp only [List.append_assoc]
  · rw [textBefore, hchild, Option.elim_some, spelled_append, spelled_append, hbefore, spelled_opening,
      spelled_lexemesAll hfront]

theorem exists_lexemes_around {n m : Node φ} {path : Path} (h : n.Fenced) (hget : n.get? path = some m) :
    ∃ xs ys, n.lexemes = xs ++ (m.lexemes ++ ys) ∧ spelled xs = textBefore path n := by
  induction path generalizing n with
  | nil =>
    obtain rfl : n = m := Option.some.inj hget
    exact ⟨[], [], by rw [List.append_nil, List.nil_append], rfl⟩
  | cons i path ih =>
    obtain ⟨fence, children, child, rfl, hchild, hrest⟩ := get?_cons_eq_some_iff.mp hget
    obtain ⟨xs, ys, hlexemes, hbefore⟩ :=
      ih (fencedAll_iff.mp h.2 child (List.mem_of_getElem? hchild)) hrest
    exact lexemes_around_step h.2 hchild hlexemes hbefore fence

/-- **The text before a slot is whole lexemes, and so is the text in it**, if the tree is fenced. -/
theorem exists_lexemesAll_around {t : List (Node φ)} {m : Node φ} {path : Path} (h : FencedAll t)
    (hpath : path ≠ []) (hget : (group none t).get? path = some m) :
    m.Fenced ∧ ∃ xs ys, lexemesAll t = xs ++ (m.lexemes ++ ys) ∧
      spelled xs = textBefore path (.group none t) := by
  cases path with
  | nil => exact absurd rfl hpath
  | cons i path =>
    obtain ⟨_, _, child, hgroup, hchild, hrest⟩ := get?_cons_eq_some_iff.mp hget
    obtain ⟨rfl, rfl⟩ := group.inj hgroup
    have hfenced := fencedAll_iff.mp h child (List.mem_of_getElem? hchild)
    obtain ⟨xs, ys, hlexemes, hbefore⟩ := exists_lexemes_around hfenced hrest
    obtain ⟨xs', ys', hroot, hbefore'⟩ := lexemes_around_step h hchild hlexemes hbefore none
    rw [lexemes, Option.map_none, Option.map_none, Option.toList_none, List.nil_append,
      List.append_nil] at hroot
    exact ⟨hfenced.of_get? hrest, xs', ys', hroot, hbefore'⟩

end Node

end LosslessSql
