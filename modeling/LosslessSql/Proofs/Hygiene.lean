import LosslessSql.Proofs.Lexeme.Neighbours
import LosslessSql.Proofs.Parse
import LosslessSql.Snippet

/-!
# Edits that keep to themselves

An edit of a leaf can change how its neighbours are read: a name that grows by a digit is still a name,
but a comment that grows by a line break is none any more.  `Leaf.Hygienic` lists the edits that are
safe wherever the leaf stands, among them the one that numbers a named parameter.  Any number of leaves
may be edited at once: `Node.EditedBy` says that two trees have the same groups and that every leaf of
the one is edited to the leaf of the other in the same slot.

* `Hygienic.mayPrecede`: leaves that stay apart stay apart when both are edited.
* `agrees_of_editedBy`: an edited tree has the lexemes of the tree, edited, and its groups.
* `parse_renderAll_of_hygienic`: **a tree that was read and then edited so is read back as it is.**
-/

namespace LosslessSql

/-! ### Leaves -/

/-- An edit of one leaf that changes nothing outside of it: another body without its own end,
another name or number, or a number in place of a name. -/
inductive Leaf.Hygienic : Leaf → Leaf → Prop
  | keep (l : Leaf) : Hygienic l l
  | quoted (q : Quote) (body : String) {body' : String} : q.mark ∉ body'.toList →
      Hygienic (.quoted q body) (.quoted q body')
  | blockComment (body : String) {body' : String} : ¬ ['*', '/'] <:+: body'.toList →
      Hygienic (.blockComment body) (.blockComment body')
  | lineComment (body : String) {body' : String} : '\r' ∉ body'.toList → '\n' ∉ body'.toList →
      Hygienic (.lineComment body) (.lineComment body')
  | named (name : String) {name' : String} : name'.toList.head?.any isNameStart = true →
      (∀ c ∈ name'.toList, isNamePart c = true) → Hygienic (.named name) (.named name')
  | ordinal (o : Ordinal) {o' : Ordinal} : 0 ≤ o'.value.toInt → Hygienic (.ordinal o) (.ordinal o')
  | number (name : String) {o : Ordinal} : 0 ≤ o.value.toInt → Hygienic (.named name) (.ordinal o)

namespace Leaf.Hygienic

variable {l l' m m' : Leaf}

theorem wellFormed (h : l.Hygienic l') (hl : l.WellFormed) : l'.WellFormed := by
  cases h with
  | keep => exact hl
  | quoted q body hbody => exact hbody
  | blockComment body hbody => exact hbody
  | @lineComment body body' hr hn =>
    intro c hc
    have hcr : c ≠ '\r' := fun he => hr (he ▸ hc)
    have hcn : c ≠ '\n' := fun he => hn (he ▸ hc)
    simp [isLineBreak, hcr, hcn]
  | named name hstart hname => exact ⟨hstart, hname⟩
  | ordinal o ho => exact ho
  | number name ho => exact ho

theorem any_isDigit_eq_false {cs : List Char} (h : cs.head?.any isNamePart = false) :
    cs.head?.any Char.isDigit = false := by
  cases cs with
  | nil => rfl
  | cons c cs =>
    have hc : isNamePart c = false := h
    show c.isDigit = false
    by_contra hd
    rw [Bool.not_eq_false] at hd
    exact absurd ((Lexeme.isNamePart_of_isDigit hd).symm.trans hc) (by decide)

theorem mayPrecede_left (h : l.Hygienic l') (hm : l.mayPrecede m = true) : l'.mayPrecede m = true := by
  cases h with
  | keep => exact hm
  | quoted q body _ => cases m <;> rfl
  | blockComment body _ => cases m <;> rfl
  | lineComment body _ => cases m <;> exact hm
  | named name _ _ => cases m <;> exact hm
  | ordinal o _ => cases m <;> exact hm
  | number name _ =>
    cases m with
    | text s =>
      have hname : (!s.toList.head?.any isNamePart) = true := hm
      show (!s.toList.head?.any Char.isDigit) = true
      rw [Bool.not_eq_true'] at hname ⊢
      exact any_isDigit_eq_false hname
    | _ => rfl

theorem mayPrecede_right (h : m.Hygienic m') (hl : l.mayPrecede m = true) :
    l.mayPrecede m' = true := by
  cases h with
  | keep => exact hl
  | quoted q body _ => cases l <;> exact hl
  | blockComment body _ => cases l <;> exact hl
  | lineComment body _ => cases l <;> exact hl
  | named name _ _ => cases l <;> exact hl
  | ordinal o _ => cases l <;> exact hl
  | number name _ =>
    cases l with
    | lineComment body => exact hl
    | _ => rfl

end Leaf.Hygienic

/-! ### Lexemes -/

/-- A lexeme whose leaf, if it is one, is edited by `R`; delimiters are kept. -/
inductive Lexeme.EditedBy (R : Leaf → Leaf → Prop) : Lexeme → Lexeme → Prop
  | leaf {l l' : Leaf} : R l l' → EditedBy R (.leaf l) (.leaf l')
  | opening (d : Delimiter) : EditedBy R (.opening d) (.opening d)
  | closing (d : Delimiter) : EditedBy R (.closing d) (.closing d)

namespace Lexeme.EditedBy

variable {x x' y y' : Lexeme}

theorem wellFormed (h : x.EditedBy Leaf.Hygienic x') (hx : x.WellFormed) : x'.WellFormed := by
  cases h with
  | leaf hl => exact hl.wellFormed hx
  | opening d => exact hx
  | closing d => exact hx

/-- **Lexemes that stay apart stay apart when both are edited.** -/
theorem mayPrecede (hx : x.EditedBy Leaf.Hygienic x') (hy : y.EditedBy Leaf.Hygienic y')
    (h : x.mayPrecede y = true) : x'.mayPrecede y' = true := by
  cases hx with
  | leaf hl =>
    cases hy with
    | leaf hm => exact hm.mayPrecede_right (hl.mayPrecede_left h)
    | opening d =>
      cases hl with
      | keep => exact h
      | lineComment => exact h
      | _ => rfl
    | closing d =>
      cases hl with
      | keep => exact h
      | lineComment => exact h
      | _ => rfl
  | opening d => rfl
  | closing d => rfl

end Lexeme.EditedBy

/-- **Edited lexemes are read back from their text if the lexemes are.** -/
theorem lexes_spelled_of_hygienic {xs ys : List Lexeme}
    (h : List.Forall₂ (Lexeme.EditedBy Leaf.Hygienic) xs ys) (hxs : Lexes (spelled xs) xs none) :
    Lexes (spelled ys) ys none := by
  rw [lexes_spelled_iff] at hxs ⊢
  obtain ⟨hw, hchain⟩ := hxs
  induction h with
  | nil => exact ⟨by simp, .nil⟩
  | @cons x y xs ys hxy hrest ih =>
    rw [List.forall_mem_cons] at hw
    have hothers := ih hw.2 hchain.tail
    refine ⟨List.forall_mem_cons.mpr ⟨hxy.wellFormed hw.1, hothers.1⟩, ?_⟩
    cases hrest with
    | nil => exact .singleton y
    | cons hnext _ =>
      rw [List.isChain_cons_cons] at hchain ⊢
      exact ⟨hxy.mayPrecede hnext hchain.1, hothers.2⟩

/-! ### Trees -/

namespace Node

variable {φ : Type}

/-- A tree with the same groups, in which every leaf is edited by `R`. -/
inductive EditedBy (R : Leaf → Leaf → Prop) : Node φ → Node φ → Prop
  | leaf {l l' : Leaf} : R l l' → EditedBy R (.leaf l) (.leaf l')
  | fragment (f : φ) : EditedBy R (.fragment f) (.fragment f)
  | group (fence : Option Delimiter) {children children' : List (Node φ)} :
      List.Forall₂ (EditedBy R) children children' →
      EditedBy R (.group fence children) (.group fence children')

/-- What an edited tree has of the tree: its lexemes, edited, and its groups. -/
structure Agrees (R : Leaf → Leaf → Prop) (ns ns' : List (Node φ)) : Prop where
  lexemes : List.Forall₂ (Lexeme.EditedBy R) (lexemesAll ns) (lexemesAll ns')
  fenced : FencedAll ns → FencedAll ns'
  depth : depthAll ns' = depthAll ns

variable {R : Leaf → Leaf → Prop}

theorem Agrees.cons {n n' : Node φ} {ns ns' : List (Node φ)} (h : Agrees R [n] [n'])
    (hs : Agrees R ns ns') : Agrees R (n :: ns) (n' :: ns') := by
  obtain ⟨hlexemes, hfenced, hdepth⟩ := h
  refine ⟨?_, ?_, ?_⟩
  · simp only [lexemesAll, List.append_nil] at hlexemes ⊢
    exact List.rel_append hlexemes hs.lexemes
  · intro hf
    exact ⟨(hfenced ⟨hf.1, trivial⟩).1, hs.fenced hf.2⟩
  · simp only [depthAll, Nat.max_zero] at hdepth ⊢
    rw [hdepth, hs.depth]

theorem agrees_of_forall {ns ns' : List (Node φ)} (h : List.Forall₂ (EditedBy R) ns ns')
    (hagrees : ∀ n ∈ ns, ∀ n', n.EditedBy R n' → Agrees R [n] [n']) : Agrees R ns ns' := by
  induction h with
  | nil => exact ⟨.nil, id, rfl⟩
  | cons hn _ ih =>
    rw [List.forall_mem_cons] at hagrees
    exact (hagrees.1 _ hn).cons (ih hagrees.2)

theorem agrees_singleton {n n' : Node φ} (h : n.EditedBy R n') : Agrees R [n] [n'] := by
  induction n using ind generalizing n' with
  | leaf l =>
    cases h with
    | leaf hl => exact ⟨.cons (.leaf hl) .nil, id, rfl⟩
  | fragment f =>
    cases h
    exact ⟨.nil, id, rfl⟩
  | group fence children ih =>
    cases h with
    | @group _ _ children' hchildren =>
      obtain ⟨hlexemes, hfenced, hdepth⟩ := agrees_of_forall hchildren fun n hn n' h => ih n hn h
      refine ⟨?_, ?_, ?_⟩
      · cases fence with
        | none => simpa [lexemesAll, Node.lexemes] using hlexemes
        | some d =>
          simp only [lexemesAll, lexemes_fence, List.append_nil]
          exact .cons (.opening d) (List.rel_append hlexemes (.cons (.closing d) .nil))
      · intro hf
        exact ⟨⟨hf.1.1, hfenced hf.1.2⟩, trivial⟩
      · simp only [depthAll, Node.depth, hdepth]

/-- **An edited tree has the lexemes of the tree, edited, and its groups.** -/
theorem agrees_of_editedBy {ns ns' : List (Node φ)} (h : List.Forall₂ (EditedBy R) ns ns') :
    Agrees R ns ns' :=
  agrees_of_forall h fun _ _ _ hn => agrees_singleton hn

end Node

/-- **A tree that was read and then edited hygienically is read back as it is**, and its text has the
tokens of the first text, edited in the same places. -/
theorem parse_renderAll_of_hygienic {φ : Type} [Fragment φ] {source : String} {t t' : List (Node φ)}
    (h : parse source = .ok t) (he : List.Forall₂ (Node.EditedBy Leaf.Hygienic) t t') :
    parse (Node.renderAll t') = .ok t' ∧
      ∃ ps ps', tokenize source = .ok ps ∧ tokenize (Node.renderAll t') = .ok ps' ∧
        List.Forall₂ (fun p p' => p.lexeme.EditedBy Leaf.Hygienic p'.lexeme) ps ps' := by
  obtain ⟨hlex, hf, hd⟩ := parse_eq_ok_iff.mp h
  obtain ⟨hlexemes, hfenced, hdepth⟩ := Node.agrees_of_editedBy he
  have hspelled : Lexes (spelled (Node.lexemesAll t)) (Node.lexemesAll t) none := by
    rw [spelled_of_lexes hlex]
    exact hlex
  have hlex' : Lexes (Node.renderAll t').toList (Node.lexemesAll t') none := by
    rw [Node.renderAll, String.toList_ofList, ← Node.spelled_lexemesAll (hfenced hf)]
    exact lexes_spelled_of_hygienic hlexemes hspelled
  refine ⟨parse_eq_ok_iff.mpr ⟨hlex', hfenced hf, hdepth ▸ hd⟩, place 0 (Node.lexemesAll t),
    place 0 (Node.lexemesAll t'), tokenize_of_lexes hlex, tokenize_of_lexes hlex', ?_⟩
  rw [← map_lexeme_place 0 (Node.lexemesAll t), ← map_lexeme_place 0 (Node.lexemesAll t'),
    List.forall₂_map_left_iff, List.forall₂_map_right_iff] at hlexemes
  exact hlexemes

/-- A quotation is filled with delimiters, and a parameter is numbered. -/
theorem parse_renderAll_numbered_query :
    ∃ t t' : List (Node Snippet), parse "f('', :id)--\n" = .ok t ∧
      List.Forall₂ (Node.EditedBy Leaf.Hygienic) t t' ∧
      parse (Node.renderAll t') = .ok t' ∧ Node.renderAll t' = "f(')]--$1', $07)--:x\n" := by
  have hparse : parse (φ := Snippet) "f('', :id)--\n" = .ok
      [.leaf (.text "f"), .group (some .paren) [.leaf (.quoted .single ""), .leaf (.text ","),
        .leaf (.space " "), .leaf (.named "id")], .leaf (.lineComment ""), .leaf (.space "\n")] := by
    with_unfolding_all rfl
  have hedit : List.Forall₂ (Node.EditedBy (φ := Snippet) Leaf.Hygienic)
      [.leaf (.text "f"), .group (some .paren) [.leaf (.quoted .single ""), .leaf (.text ","),
        .leaf (.space " "), .leaf (.named "id")], .leaf (.lineComment ""), .leaf (.space "\n")]
      [.leaf (.text "f"), .group (some .paren) [.leaf (.quoted .single ")]--$1"), .leaf (.text ","),
        .leaf (.space " "), .leaf (.ordinal ⟨7, 1⟩)], .leaf (.lineComment ":x"),
        .leaf (.space "\n")] := by
    refine .cons (.leaf (.keep _)) (.cons (.group _ (.cons (.leaf (.quoted _ _ (by decide)))
      (.cons (.leaf (.keep _)) (.cons (.leaf (.keep _)) (.cons (.leaf (.number _ (by decide)))
        .nil))))) (.cons (.leaf (.lineComment _ (by decide) (by decide)))
          (.cons (.leaf (.keep _)) .nil)))
  exact ⟨_, _, hparse, hedit, (parse_renderAll_of_hygienic hparse hedit).1, rfl⟩

end LosslessSql
