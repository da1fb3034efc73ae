import LosslessSql.Node.Params
import LosslessSql.Proofs.Nesting
import LosslessSql.Proofs.Node.Slots
import LosslessSql.Proofs.Parse
import LosslessSql.Proofs.Token
import LosslessSql.Snippet

/-!
# Rewriting a text through its tree

A tree is edited in place by a walk over its leaves.  The same could be done without a tree: take the
tokens of the text one after another, write delimiters as they are, give everything else to the visitor
and write what it leaves behind.  `rewriteTokens?` does this.

* `spellAll_fillAll`: a tree with other nodes in its slots is spelled like its lexemes, with the leaves
  among them replaced in order.
* `rewriteTokens?_eq`: the tokens of a text are rewritten by a visit to the list of its leaves.
* `rewriteTokens?_of_parse`: **a walk over the tree of a text rewrites the tokens of the text.**
-/

namespace LosslessSql

open Node

variable {φ σ ε : Type}

/-! ### Rewriting tokens -/

/-- What comes of rewriting the tokens of a text: the new text, the nodes that the visitor was
given, and its last state and error. -/
structure Rewriting (φ σ ε : Type) where
  text : String
  calls : List (Node φ)
  state : σ
  stop : Option ε

/-- The text of tokens as it stands in the source; `none` if one of them is no stretch of it. -/
def verbatim? (source : String) : List Token → Option String
  | [] => some ""
  | token :: tokens => do
    let first ← token.text? source
    let others ← verbatim? source tokens
    return first ++ others

/-- Rewrites tokens one after another.  A delimiter is written as it stands in the source.  Any other
token is given to the visitor as a node, and what the visitor leaves is written in its place.  From
where the visitor stops, all tokens are written as they stand in the source. -/
def rewriteTokens? [Fragment φ] (visit : Visitor φ σ ε) (source : String) (s : σ) :
    List Token → Option (Rewriting φ σ ε)
  | [] => some ⟨"", [], s, none⟩
  | token :: tokens => do
    match ← token.leaf? source with
    | none =>
      let delimiter ← token.text? source
      let others ← rewriteTokens? visit source s tokens
      return { others with text := delimiter ++ others.text }
    | some l =>
      let left := visit s (.leaf l)
      match left.stop with
      | some e =>
        let others ← verbatim? source tokens
        return ⟨left.value.render ++ others, [.leaf l], left.state, some e⟩
      | none =>
        let others ← rewriteTokens? visit source left.state tokens
        return { others with
          text := left.value.render ++ others.text
          calls := .leaf l :: others.calls }

def leafTokens (tokens : List Token) : List Token :=
  tokens.filter fun token => !token.kind.isOpening && !token.kind.isClosing

/-! ### The leaves among lexemes -/

def leavesOf (xs : List Lexeme) : List Leaf :=
  xs.filterMap Lexeme.leaf?

@[simp] theorem leavesOf_append (xs ys : List Lexeme) :
    leavesOf (xs ++ ys) = leavesOf xs ++ leavesOf ys :=
  List.filterMap_append

theorem leavesAll_eq_of_forall {ns : List (Node φ)}
    (h : ∀ n ∈ ns, n.leaves = (leavesOf n.lexemes).map .leaf) :
    leavesAll ns = (leavesOf (lexemesAll ns)).map .leaf := by
  induction ns with
  | nil => rfl
  | cons n ns ih =>
    rw [List.forall_mem_cons] at h
    rw [leavesAll, lexemesAll, leavesOf_append, List.map_append, h.1, ih h.2]

theorem leaves_eq {n : Node φ} (h : n.Fenced) : n.leaves = (leavesOf n.lexemes).map .leaf := by
  induction n using ind with
  | leaf l => rfl
  | fragment f => exact absurd h (by simp [Fenced])
  | group fence children ih =>
    obtain ⟨d, rfl⟩ := Option.isSome_iff_exists.mp h.1
    have hbody := leavesAll_eq_of_forall fun n hn => ih n hn (fencedAll_iff.mp h.2 n hn)
    have hlexemes : leavesOf (lexemes (.group (some d) children)) = leavesOf (lexemesAll children) := by
      rw [lexemes_fence, leavesOf, List.filterMap_cons_none rfl]
      show leavesOf (lexemesAll children ++ [.closing d]) = _
      rw [leavesOf_append]
      exact List.append_nil _
    rw [leaves, hbody, hlexemes]

theorem leavesAll_eq {ns : List (Node φ)} (h : FencedAll ns) :
    leavesAll ns = (leavesOf (lexemesAll ns)).map .leaf :=
  leavesAll_eq_of_forall fun n hn => leaves_eq (fencedAll_iff.mp h n hn)

/-! ### The text of a filled tree -/

section Spelling

variable [Fragment φ]

/-- The text of lexemes with other nodes in place of the leaves among them, in order. -/
def spelledWith : List Lexeme → List (Node φ) → List Char
  | [], _ => []
  | .leaf _ :: xs, v :: vs => v.spelling ++ spelledWith xs vs
  | x :: xs, vs => x.spelling ++ spelledWith xs vs

theorem spelledWith_delimiter {x : Lexeme} (h : x.leaf? = none) (xs : List Lexeme)
    (vs : List (Node φ)) : spelledWith (x :: xs) vs = x.spelling ++ spelledWith xs vs := by
  cases x with
  | leaf l => exact absurd h (by simp [Lexeme.leaf?])
  | opening d => rfl
  | closing d => rfl

theorem leavesOf_delimiter {x : Lexeme} (h : x.leaf? = none) (xs : List Lexeme) :
    leavesOf (x :: xs) = leavesOf xs :=
  List.filterMap_cons_none h

theorem spelledWith_append {xs : List Lexeme} {vs : List (Node φ)}
    (h : vs.length = (leavesOf xs).length) (ys : List Lexeme) (ws : List (Node φ)) :
    spelledWith (xs ++ ys) (vs ++ ws) = spelledWith xs vs ++ spelledWith ys ws := by
  induction xs generalizing vs with
  | nil =>
    obtain rfl := List.length_eq_zero_iff.mp h
    rfl
  | cons x xs ih =>
    rw [List.cons_append]
    cases hx : x.leaf? with
    | none =>
      rw [leavesOf_delimiter hx] at h
      rw [spelledWith_delimiter hx, spelledWith_delimiter hx, ih h, List.append_assoc]
    | some l =>
      match x with
      | .leaf l =>
        obtain ⟨v, vs, rfl⟩ := List.exists_cons_of_length_eq_add_one h
        rw [List.cons_append, spelledWith, spelledWith, ih (Nat.succ.inj h), List.append_assoc]

theorem spelledWith_leavesOf (xs : List Lexeme) :
    spelledWith xs ((leavesOf xs).map (Node.leaf (φ := φ))) = spelled xs := by
  induction xs with
  | nil => rfl
  | cons x xs ih =>
    rw [spelled_cons, ← ih]
    cases hx : x.leaf? with
    | none => rw [leavesOf_delimiter hx, spelledWith_delimiter hx]
    | some l =>
      match x with
      | .leaf l => rfl

theorem spellAll_fillAll_of_forall {ns : List (Node φ)} (hf : FencedAll ns)
    (h : ∀ n ∈ ns, ∀ vs, vs.length = n.leaves.length →
      (fill n vs).spelling = spelledWith n.lexemes vs)
    {vs : List (Node φ)} (hvs : vs.length = (leavesAll ns).length) :
    spellAll (fillAll ns vs) = spelledWith (lexemesAll ns) vs := by
  induction ns generalizing vs with
  | nil => rfl
  | cons n ns ih =>
    rw [List.forall_mem_cons] at h
    rw [leavesAll, List.length_append] at hvs
    have hfirst : (vs.take n.leaves.length).length = n.leaves.length := by
      rw [List.length_take]
      omega
    have hothers : (vs.drop n.leaves.length).length = (leavesAll ns).length := by
      rw [List.length_drop]
      omega
    have hleaves : (vs.take n.leaves.length).length = (leavesOf n.lexemes).length := by
      rw [hfirst, leaves_eq hf.1, List.length_map]
    have happ := spelledWith_append hleaves (lexemesAll ns) (vs.drop n.leaves.length)
    rw [List.take_append_drop] at happ
    rw [fillAll, spellAll, h.1 _ hfirst, ih hf.2 h.2 hothers, lexemesAll, happ]

theorem spelling_fill {n : Node φ} (hf : n.Fenced) {vs : List (Node φ)}
    (hvs : vs.length = n.leaves.length) : (fill n vs).spelling = spelledWith n.lexemes vs := by
  induction n using ind generalizing vs with
  | leaf l =>
    obtain ⟨v, rfl⟩ := List.length_eq_one_iff.mp hvs
    exact (List.append_nil _).symm
  | fragment f => exact absurd hf (by simp [Fenced])
  | group fence children ih =>
    obtain ⟨hfence, hchildren⟩ := hf
    obtain ⟨d, rfl⟩ := Option.isSome_iff_exists.mp hfence
    have hbody := spellAll_fillAll_of_forall hchildren
      (fun n hn vs h => ih n hn (fencedAll_iff.mp hchildren n hn) h) hvs
    have hleaves : vs.length = (leavesOf (lexemesAll children)).length := by
      rw [hvs, leaves, leavesAll_eq hchildren, List.length_map]
    have happ := spelledWith_append hleaves [.closing d] []
    rw [List.append_nil] at happ
    rw [fill, spelling, hbody, lexemes_fence, spelledWith_delimiter rfl, happ]
    rfl

/-- **A tree with other nodes in its slots is spelled like its lexemes, with the leaves among them
replaced in order.** -/
theorem spellAll_fillAll {ns : List (Node φ)} (hf : FencedAll ns) {vs : List (Node φ)}
    (hvs : vs.length = (leavesAll ns).length) :
    spellAll (fillAll ns vs) = spelledWith (lexemesAll ns) vs :=
  spellAll_fillAll_of_forall hf (fun n hn _ h => spelling_fill (fencedAll_iff.mp hf n hn) h) hvs

end Spelling

/-! ### The tokens of a text, rewritten -/

section Tokens

variable {source : String}

theorem verbatim?_eq {ps : List Placed} (h : ∀ p ∈ ps, p.StandsIn source) :
    verbatim? source (ps.map Placed.token) =
      some (String.ofList (spelled (ps.map Placed.lexeme))) := by
  induction ps with
  | nil => rfl
  | cons p ps ih =>
    rw [List.forall_mem_cons] at h
    rw [List.map_cons, verbatim?, Token.text?_token h.1, ih h.2, List.map_cons, spelled_cons,
      String.ofList_append]
    rfl

theorem map_leaf?_leafTokens {ps : List Placed} (h : ∀ p ∈ ps, p.StandsIn source) :
    (leafTokens (ps.map Placed.token)).map (fun token => token.leaf? source) =
      (leavesOf (ps.map Placed.lexeme)).map fun l => some (some l) := by
  induction ps with
  | nil => rfl
  | cons p ps ih =>
    rw [List.forall_mem_cons] at h
    have hleaf := Token.leaf?_token h.1
    have hothers := ih h.2
    obtain ⟨x, start⟩ := p
    cases x with
    | leaf l =>
      obtain ⟨ho, hc⟩ := l.not_delimiter_tokenKind
      have hkeep : leafTokens (List.map Placed.token (⟨.leaf l, start⟩ :: ps)) =
          Placed.token ⟨.leaf l, start⟩ :: leafTokens (ps.map Placed.token) := by
        rw [List.map_cons, leafTokens, List.filter_cons, if_pos]
        · rfl
        · simp only [Placed.token, Lexeme.tokenKind, ho, hc, Bool.not_false, Bool.and_self]
      rw [hkeep, List.map_cons, hleaf, hothers]
      rfl
    | opening d => exact hothers
    | closing d => exact hothers

section Steps

variable [Fragment φ] {visit : Visitor φ σ ε} {s : σ} {token : Token} {tokens : List Token}

theorem rewriteTokens?_delimiter {w : String} {r : Rewriting φ σ ε}
    (hleaf : token.leaf? source = some none) (htext : token.text? source = some w)
    (h : rewriteTokens? visit source s tokens = some r) :
    rewriteTokens? visit source s (token :: tokens) = some { r with text := w ++ r.text } := by
  rw [rewriteTokens?, hleaf, htext, h]
  rfl

theorem rewriteTokens?_of_stop {l : Leaf} {e : ε} {w : String}
    (hleaf : token.leaf? source = some (some l)) (hstop : (visit s (.leaf l)).stop = some e)
    (h : verbatim? source tokens = some w) :
    rewriteTokens? visit source s (token :: tokens) =
      some ⟨(visit s (.leaf l)).value.render ++ w, [.leaf l], (visit s (.leaf l)).state, some e⟩ := by
  rw [rewriteTokens?, hleaf]
  simp only [Option.bind_eq_bind, Option.bind_some, hstop, h]
  rfl

theorem rewriteTokens?_of_none {l : Leaf} {r : Rewriting φ σ ε}
    (hleaf : token.leaf? source = some (some l)) (hstop : (visit s (.leaf l)).stop = none)
    (h : rewriteTokens? visit source (visit s (.leaf l)).state tokens = some r) :
    rewriteTokens? visit source s (token :: tokens) =
      some ⟨(visit s (.leaf l)).value.render ++ r.text, .leaf l :: r.calls, r.state, r.stop⟩ := by
  rw [rewriteTokens?, hleaf]
  simp only [Option.bind_eq_bind, Option.bind_some, hstop, h]
  rfl

end Steps

/-- **The tokens of lexemes are rewritten by a visit to the list of the leaves among them.** -/
theorem rewriteTokens?_eq [Fragment φ] (visit : Visitor φ σ ε) (s : σ) {ps : List Placed}
    (h : ∀ p ∈ ps, p.StandsIn source) {ls : List (Node φ)}
    (hls : ls = (leavesOf (ps.map Placed.lexeme)).map .leaf) :
    rewriteTokens? visit source s (ps.map Placed.token) =
      some ⟨String.ofList (spelledWith (ps.map Placed.lexeme) (visitEach visit s ls).value),
        calls visit s ls, (visitEach visit s ls).state, (visitEach visit s ls).stop⟩ := by
  subst hls
  induction ps generalizing s with
  | nil => rfl
  | cons p ps ih =>
    rw [List.forall_mem_cons] at h
    have htext := Token.text?_token h.1
    have hleaf := Token.leaf?_token h.1
    rw [List.map_cons, List.map_cons]
    cases hx : p.lexeme.leaf? with
    | none =>
      rw [hx] at hleaf
      rw [rewriteTokens?_delimiter hleaf htext (ih s h.2), leavesOf_delimiter hx,
        spelledWith_delimiter hx, String.ofList_append]
    | some l =>
      rw [hx] at hleaf
      have hleaves : (leavesOf (p.lexeme :: ps.map Placed.lexeme)).map (Node.leaf (φ := φ)) =
          .leaf l :: (leavesOf (ps.map Placed.lexeme)).map .leaf := by
        rw [leavesOf, List.filterMap_cons_some hx]
        rfl
      rw [hleaves, calls, Lexeme.leaf?_eq_some_iff.mp hx]
      cases hstop : (visit s (.leaf l)).stop with
      | some e =>
        rw [rewriteTokens?_of_stop hleaf hstop (verbatim?_eq h.2), visitEach_cons_of_stop hstop,
          spelledWith, spelledWith_leavesOf, String.ofList_append]
        rfl
      | none =>
        rw [rewriteTokens?_of_none hleaf hstop (ih _ h.2), visitEach_cons_of_none hstop, Visited.map,
          spelledWith, String.ofList_append]
        rfl

end Tokens

/-! ### A walk rewrites the tokens -/

theorem rewriteTokens?_eq_walk [Fragment φ] {source : String} {t : List (Node φ)} (hf : FencedAll t)
    {ps : List Placed} (h : ∀ p ∈ ps, p.StandsIn source)
    (hps : ps.map Placed.lexeme = lexemesAll t) (visit : Visitor φ σ ε) (s : σ) :
    rewriteTokens? visit source s (ps.map Placed.token) =
      some ⟨renderAll (walkLeavesAll visit s t).value, calls visit s (leavesAll t),
        (walkLeavesAll visit s t).state, (walkLeavesAll visit s t).stop⟩ := by
  have hleaves : leavesAll t = (leavesOf (ps.map Placed.lexeme)).map .leaf := by
    rw [hps, leavesAll_eq hf]
  have hlength := length_visitEach visit s (leavesAll t)
  rw [rewriteTokens?_eq visit s h hleaves, walkLeavesAll_eq, Visited.map, renderAll,
    spellAll_fillAll hf hlength, hps]

/-- **A walk over the tree of a text rewrites the tokens of the text.**  The visitor is given the leaves
of the tokens that are no delimiters, in order, up to the one where it stops; the tree is then spelled
like the tokens, with each of these in the form that the visitor left.  A visitor that never stops is
given all of them. -/
theorem rewriteTokens?_of_parse [Fragment φ] {source : String} {t : List (Node φ)}
    (h : parse source = .ok t) (visit : Visitor φ σ ε) (s : σ) :
    ∃ (tokens : List Token) (ls : List Leaf),
      (tokenize source).map (List.map Placed.token) = .ok tokens ∧
      (leafTokens tokens).map (fun token => token.leaf? source) = ls.map (fun l => some (some l)) ∧
      (∃ (t' : List (Node φ)) (s' : σ) (given : List (Node φ)) (stop : Option ε),
        walkLeavesAll visit s t = ⟨t', s', stop⟩ ∧
        walkLeavesAll visit.logged (s, []) t = ⟨t', (s', given), stop⟩ ∧
        rewriteTokens? visit source s tokens = some ⟨renderAll t', given, s', stop⟩ ∧
        given <+: ls.map .leaf) ∧
      ∃ (t' : List (Node φ)) (s' : σ),
        walkLeavesAll visit.steady.logged (s, []) t = ⟨t', (s', ls.map .leaf), none⟩ ∧
        rewriteTokens? visit.steady source s tokens =
          some ⟨renderAll t', ls.map .leaf, s', none⟩ := by
  obtain ⟨hlex, hf, _⟩ := parse_eq_ok_iff.mp h
  have hstands : ∀ p ∈ place 0 (lexemesAll t), p.StandsIn source :=
    fun p hp => Placed.standsIn_of_lexes hlex hp
  have hps : (place 0 (lexemesAll t)).map Placed.lexeme = lexemesAll t := map_lexeme_place 0 _
  have htokens := map_leaf?_leafTokens hstands
  rw [hps] at htokens
  have hleaves := leavesAll_eq hf
  refine ⟨(place 0 (lexemesAll t)).map Placed.token, leavesOf (lexemesAll t), ?_, htokens, ?_, ?_⟩
  · rw [tokenize_of_lexes hlex]
    rfl
  · refine ⟨_, _, calls visit s (leavesAll t), _, rfl, ?_,
      rewriteTokens?_eq_walk hf hstands hps visit s, ?_⟩
    · rw [walkLeavesAll_logged, List.nil_append]
    · rw [← hleaves]
      exact calls_prefix visit s (leavesAll t)
  · have hstop : (walkLeavesAll visit.steady s t).stop = none := by
      rw [walkLeavesAll_eq]
      exact stop_visitEach_steady visit s (leavesAll t)
    have hcalls : calls visit.steady s (leavesAll t) = (leavesOf (lexemesAll t)).map .leaf := by
      rw [← hleaves]
      exact calls_of_stop_eq_none (stop_visitEach_steady visit s (leavesAll t))
    refine ⟨(walkLeavesAll visit.steady s t).value, (walkLeavesAll visit.steady s t).state, ?_, ?_⟩
    · rw [walkLeavesAll_logged, hstop, hcalls, List.nil_append]
    · rw [rewriteTokens?_eq_walk hf hstands hps, hstop, hcalls]

/-- Arguments are put in by name, and there is none for the second parameter: the walk stops there, and
what stands behind it is kept. -/
theorem rewriteTokens?_missing_argument :
    ∃ (t : List (Node Snippet)) (tokens : List Token) (given : List (Node Snippet)),
      parse "a($1, $2)$3" = .ok t ∧
      (tokenize "a($1, $2)$3").map (List.map Placed.token) = .ok tokens ∧
      rewriteTokens? (nameParam ["x"]) "a($1, $2)$3" () tokens =
        some ⟨"a(:x, $2)$3", given, (), some 1⟩ := by
  have hparse : parse (φ := Snippet) "a($1, $2)$3" = .ok
      [.leaf (.text "a"), .group (some .paren) [.leaf (.ordinal ⟨1, 0⟩), .leaf (.text ","),
        .leaf (.space " "), .leaf (.ordinal ⟨2, 0⟩)], .leaf (.ordinal ⟨3, 0⟩)] := by
    with_unfolding_all rfl
  obtain ⟨tokens, _, htokens, _, ⟨t', s', given, stop, hwalk, _, hrewrite, _⟩, _⟩ :=
    rewriteTokens?_of_parse hparse (nameParam ["x"]) ()
  have htext : renderAll t' = "a(:x, $2)$3" ∧ stop = some 1 := by
    obtain ⟨rfl, _, rfl⟩ := Visited.mk.inj hwalk
    exact ⟨rfl, rfl⟩
  rw [htext.1, htext.2] at hrewrite
  exact ⟨_, tokens, given, hparse, htokens, hrewrite⟩

end LosslessSql
