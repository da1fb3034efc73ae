import LosslessSql.Proofs.Continuation
import LosslessSql.Proofs.RoundTrip

/-!
# A text between delimiters

What becomes of a text that reads as a tree when a pair of delimiters is put around it?  The opening
delimiter runs into nothing, so the lexemes of the text come behind it as they were, and a builder takes
them with one more delimiter open at every step.  Two things can go wrong.  A line comment at the end of
the text swallows the closing delimiter, and then the opening one stays open.  And where the text has as
many delimiters open as may be, there is one too many now.

* `Builder.within`: a builder with one more open delimiter around all that it has.
* `add_within`, `foldlM_within`: **it takes the same lexemes, as long as there is room.**
* `shallow_or_exists`: a word that goes too deep has a first place where it does.
* `lexes_swallow`: a line comment at the end of a text swallows what is put behind it.
* `parse_enclose`: **what a text between delimiters reads as**, in all cases.
-/

namespace LosslessSql

def Delimiter.enclose (d : Delimiter) (source : String) : String :=
  String.singleton d.opening ++ source ++ String.singleton d.closing

/-- The first of the tokens `ts` that opens a delimiter at the given depth, itself counted, is `t`, and
`us` are the tokens before it. -/
structure FirstOpener (depth : Nat) (ts us : List Token) (t : Token) : Prop where
  splits : ∃ vs, ts = us ++ t :: vs
  opener : t.kind.isOpening = true
  deep : opens (us.map Token.kind) + 1 = closes (us.map Token.kind) + depth
  first : ∀ vs u, vs ++ [u] <+: us → u.kind.isOpening = true →
    opens (vs.map Token.kind) + 1 ≠ closes (vs.map Token.kind) + depth

/-! ### One more open delimiter -/

namespace Builder

variable {φ : Type} {b c : Builder φ}

/-- A builder with one more open delimiter around all that it has. -/
def within (frame : Frame φ) (b : Builder φ) : Builder φ :=
  ⟨b.frames ++ [frame], b.nodes⟩

theorem length_frames_of_add {p : Placed} (h : b.add p = .ok c) :
    b.frames.length + opens [p.lexeme.tokenKind] = c.frames.length + closes [p.lexeme.tokenKind] := by
  rcases add_eq_ok h with ⟨l, hp, rfl⟩ | ⟨d, hp, _, rfl⟩ | ⟨d, openedAt, before, frames, hp, hb, rfl⟩
  · obtain ⟨ho, hc⟩ := l.not_delimiter_tokenKind
    simp [hp, Lexeme.tokenKind, opens, closes, ho, hc]
  · simp [hp, Lexeme.tokenKind]
  · simp [hp, hb, Lexeme.tokenKind]

/-- **One lexeme more**: what a builder takes it also takes inside another delimiter, unless that makes
one open delimiter too many. -/
theorem add_within (frame : Frame φ) {p : Placed} (h : b.add p = .ok c)
    (hroom : c.frames.length < maxDepth) : (b.within frame).add p = .ok (c.within frame) := by
  rcases add_eq_ok h with ⟨l, hp, rfl⟩ | ⟨d, hp, _, rfl⟩ | ⟨d, openedAt, before, frames, hp, hb, rfl⟩
  · rw [add, hp]
    rfl
  · have hlt : (b.within frame).frames.length < maxDepth := by
      simpa [within] using hroom
    rw [add, hp]
    exact if_pos hlt
  · rw [add, hp]
    simp [closeAt, within, hb]

/-- **A builder takes the same lexemes inside another delimiter**, if there is room for it at every step:
after each part `u` of the word there is one open delimiter less than may be. -/
theorem foldlM_within (frame : Frame φ) {ps : List Placed} (hrun : ps.foldlM add b = .ok c)
    (hroom : ∀ u, u <+: word ps → b.frames.length + opens u < closes u + maxDepth) :
    ps.foldlM add (b.within frame) = .ok (c.within frame) := by
  induction ps generalizing b with
  | nil =>
    cases hrun
    rfl
  | cons p ps ih =>
    rw [List.foldlM_cons, bind_eq_ok_iff] at hrun
    obtain ⟨b', hadd, hrun⟩ := hrun
    have hlength := length_frames_of_add hadd
    have hfirst := hroom [p.lexeme.tokenKind] ⟨word ps, rfl⟩
    have hothers : ∀ u, u <+: word ps → b'.frames.length + opens u < closes u + maxDepth := by
      intro u hu
      have hnext := hroom ([p.lexeme.tokenKind] ++ u) ((List.prefix_cons_inj _).mpr hu)
      rw [opens_append, closes_append] at hnext
      omega
    rw [List.foldlM_cons, add_within frame hadd (by omega)]
    exact ih hrun hothers

theorem foldlM_within_of_shallow (frame : Frame φ) {ps : List Placed} (hrun : ps.foldlM add empty = .ok c)
    (hroom : Shallow (maxDepth - 1) (word ps)) :
    ps.foldlM add (empty.within frame) = .ok (c.within frame) := by
  refine foldlM_within frame hrun ?_
  intro u hu
  have hle := hroom u hu
  simp only [empty, List.length_nil, maxDepth] at hle ⊢
  omega

end Builder

/-! ### Where a word goes too deep -/

theorem shallow_concat {limit : Nat} {w : List TokenKind} {k : TokenKind} (hw : Shallow limit w)
    (hk : opens (w ++ [k]) ≤ closes (w ++ [k]) + limit) : Shallow limit (w ++ [k]) := by
  intro u hu
  rcases List.prefix_concat_iff.mp hu with rfl | hu
  · exact hk
  · exact hw u hu

theorem TokenKind.exists_eq_opening {k : TokenKind} (h : k.isOpening = true) :
    ∃ d, k = .opening d := by
  cases k with
  | opening d => exact ⟨d, rfl⟩
  | _ => exact absurd h Bool.false_ne_true

/-- **A word that goes too deep has a first place where it does**, and there a delimiter is opened. -/
theorem shallow_or_exists (limit : Nat) (w : List TokenKind) :
    Shallow limit w ∨ ∃ u d v, w = u ++ .opening d :: v ∧ Shallow limit u ∧
      opens u = closes u + limit := by
  induction w using List.reverseRecOn with
  | nil => exact Or.inl (shallow_nil limit)
  | append_singleton w k ih =>
    rcases ih with hw | ⟨u, d, v, rfl, hu, hopen⟩
    · by_cases hk : opens (w ++ [k]) ≤ closes (w ++ [k]) + limit
      · exact Or.inl (shallow_concat hw hk)
      · have hle := hw w List.prefix_rfl
        rw [opens_append, closes_append] at hk
        cases hkind : k.isOpening with
        | false =>
          have hnone : opens [k] = 0 := by simp [opens, hkind]
          omega
        | true =>
          obtain ⟨d, rfl⟩ := TokenKind.exists_eq_opening hkind
          rw [opens_opening, closes_opening, opens_nil, closes_nil] at hk
          exact Or.inr ⟨w, d, [], rfl, hw, by omega⟩
    · exact Or.inr ⟨u, d, v ++ [k], by rw [List.append_assoc, List.cons_append], hu, hopen⟩

theorem firstOpener_of_shallow {limit : Nat} {before behind : List Placed} {d : Delimiter} {start : Nat}
    (hbefore : Shallow limit (word before)) (hopen : opens (word before) = closes (word before) + limit) :
    FirstOpener (limit + 1) ((before ++ ⟨.opening d, start⟩ :: behind).map Placed.token)
      (before.map Placed.token) (Placed.token ⟨.opening d, start⟩) := by
  refine ⟨⟨behind.map Placed.token, by rw [List.map_append, List.map_cons]⟩, rfl, ?_, ?_⟩
  · rw [map_kind_map_token]
    omega
  · intro vs u hpre hu hdeep
    have hkinds := hpre.map Token.kind
    rw [map_kind_map_token, List.map_append, List.map_singleton] at hkinds
    obtain ⟨c, hc⟩ := TokenKind.exists_eq_opening hu
    have hle := hbefore _ hkinds
    rw [hc, opens_append, closes_append, opens_opening, closes_opening, opens_nil, closes_nil] at hle
    omega

/-! ### The lexemes between the delimiters -/

section Lexemes

variable {source : String} {d : Delimiter}

theorem toList_enclose (d : Delimiter) (source : String) :
    (d.enclose source).toList = d.opening :: (source.toList ++ [d.closing]) := by
  simp [Delimiter.enclose]

theorem byteSize_enclose (d : Delimiter) (source : String) :
    byteSize (d.enclose source).toList = byteSize source.toList + 2 := by
  have hopen : d.opening.utf8Size = 1 := by cases d <;> rfl
  have hclose : d.closing.utf8Size = 1 := by cases d <;> rfl
  rw [toList_enclose, byteSize_cons, byteSize_append, byteSize_cons, byteSize_nil]
  omega

theorem mayPrecede_lineComment (x : Lexeme) (body body' : String) :
    x.mayPrecede (.leaf (.lineComment body)) = x.mayPrecede (.leaf (.lineComment body')) := by
  cases x with
  | leaf l => cases l <;> rfl
  | opening d => rfl
  | closing d => rfl

/-- **A line comment at the end of a text swallows what is put behind it.** -/
theorem lexes_swallow {cs : List Char} {xs : List Lexeme} {body : String} {c : Char}
    (h : Lexes cs (xs ++ [.leaf (.lineComment body)]) none) (hc : isLineBreak c = false) :
    Lexes (cs ++ [c]) (xs ++ [.leaf (.lineComment (body.push c))]) none := by
  obtain ⟨hall, hchain⟩ := fits_of_lexes h
  have hspelled : spelled (xs ++ [.leaf (.lineComment (body.push c))]) = cs ++ [c] := by
    rw [← spelled_of_lexes h]
    simp [Lexeme.spelling, Leaf.spelling]
  rw [← hspelled, lexes_spelled_iff]
  rw [List.isChain_append] at hchain ⊢
  obtain ⟨hxs, _, hlast⟩ := hchain
  refine ⟨?_, hxs, .singleton _, ?_⟩
  · intro x hx
    rcases List.mem_append.mp hx with hx | hx
    · exact hall x (List.mem_append_left _ hx)
    · obtain rfl := List.mem_singleton.mp hx
      have hbody : (Lexeme.leaf (.lineComment body)).WellFormed := hall _ (by simp)
      intro a ha
      rw [String.toList_push, List.mem_append, List.mem_singleton] at ha
      rcases ha with ha | rfl
      · exact hbody a ha
      · exact hc
  · intro x hx y hy
    obtain rfl := Option.mem_some_iff.mp hy
    rw [← mayPrecede_lineComment x body]
    exact hlast x hx _ rfl

end Lexemes

/-! ### What is read -/

section Parse

open Node

variable {φ : Type} {source : String} {t : List (Node φ)}

/-- Behind an opening delimiter every text has its own lexemes. -/
theorem lexes_opening (d : Delimiter) {cs : List Char} {xs : List Lexeme} {fault : Option Fault}
    (h : Lexes cs xs fault) : Lexes (d.opening :: cs) (.opening d :: xs) fault :=
  Lexes.cons (x := .opening d) trivial trivial h

theorem foldlM_opening (d : Delimiter) (xs : List Lexeme) :
    (place 0 (.opening d :: xs)).foldlM Builder.add (Builder.empty (φ := φ)) =
      (place 1 xs).foldlM Builder.add (Builder.empty.within ⟨d, 0, []⟩) := by
  have hsize : 0 + (Lexeme.opening d).size = 1 := by cases d <;> rfl
  rw [place, hsize, List.foldlM_cons]
  rfl

/-- Room for one more delimiter, and nothing that swallows the closing one. -/
theorem parse_enclose_of_room (h : parse source = .ok t) (d : Delimiter) (hroom : depthAll t < maxDepth)
    (hlast : ∀ n ∈ t.getLast?, n.kind ≠ .lineComment) :
    parse (d.enclose source) = .ok [.group (some d) t] := by
  obtain ⟨hlex, hf, _⟩ := parse_eq_ok_iff.mp h
  obtain ⟨hall, hchain⟩ := fits_of_lexes hlex
  have hlexemes : lexemesAll [.group (some d) t] = .opening d :: (lexemesAll t ++ [.closing d]) := by
    rw [lexemesAll, lexemesAll, lexemes_fence, List.append_nil]
  have hspelled : spelled (.opening d :: (lexemesAll t ++ [.closing d])) = (d.enclose source).toList := by
    rw [toList_enclose, ← spelled_of_lexes hlex]
    simp [Lexeme.spelling]
  refine parse_eq_ok_iff.mpr ⟨?_, ⟨⟨rfl, hf⟩, trivial⟩, ?_⟩
  · rw [hlexemes, ← hspelled, lexes_spelled_iff]
    refine ⟨?_, (isChain_fence_iff hf d).mpr ⟨hchain, hlast⟩⟩
    intro x hx
    rw [List.mem_cons, List.mem_append, List.mem_singleton] at hx
    rcases hx with rfl | hx | rfl
    · trivial
    · exact hall x hx
    · trivial
  · rw [depthAll, depthAll, depth_fence]
    omega

theorem exists_eq_lineComment {n : Node φ} (h : n.kind = .lineComment) :
    ∃ body, n = .leaf (.lineComment body) := by
  cases n with
  | leaf l =>
    cases l with
    | lineComment body => exact ⟨body, rfl⟩
    | _ => exact absurd h (by simp [kind, Leaf.nodeKind])
  | fragment f => exact absurd h (by simp [kind])
  | group fence children => exact absurd h (by simp [kind])

/-- The closing delimiter belongs to the line comment, and nothing closes the opening one. -/
theorem parse_enclose_of_lineComment (h : parse source = .ok t) (d : Delimiter)
    (hroom : depthAll t < maxDepth) (hlast : ∃ n ∈ t.getLast?, n.kind = .lineComment) :
    parse (φ := φ) (d.enclose source) =
      .error (.missingClosing d.closing 0 (byteSize source.toList + 2)) := by
  obtain ⟨hlex, hf, _⟩ := parse_eq_ok_iff.mp h
  obtain ⟨n, hn, hkind⟩ := hlast
  obtain ⟨before, rfl⟩ := List.getLast?_eq_some_iff.mp hn
  obtain ⟨body, rfl⟩ := exists_eq_lineComment hkind
  have hbreak : isLineBreak d.closing = false := by cases d <;> rfl
  rw [lexemesAll_concat] at hlex
  have hswallowed := lexes_opening d (lexes_swallow hlex hbreak)
  rw [← toList_enclose] at hswallowed
  -- What the builder takes behind the opening delimiter is the tree with the longer comment.
  have hfenced : FencedAll (before ++ [.leaf (.lineComment (body.push d.closing))]) :=
    fencedAll_append.mpr ⟨(fencedAll_append.mp hf).1, trivial, trivial⟩
  have hdepth : 1 + depthAll (before ++ [.leaf (.lineComment (body.push d.closing))]) ≤ maxDepth := by
    rw [depthAll_append] at hroom ⊢
    exact Nat.one_add_le_iff.mpr hroom
  have hrun := Builder.foldlM_add_lexemesAll (b := Builder.empty.within ⟨d, 0, []⟩) hfenced hdepth
    ((map_lexeme_place 1 _).trans (lexemesAll_concat before _).symm)
  rw [parse_eq hswallowed, foldlM_opening, byteSize_enclose]
  exact congrArg (· >>= _) hrun

/-- Up to a delimiter that it opens, the text has its lexemes, whatever becomes of the rest. -/
theorem exists_lexes_enclose {ys zs : List Lexeme} {e : Delimiter}
    (hlex : Lexes source.toList (ys ++ .opening e :: zs) none) (d : Delimiter) :
    ∃ zs' fault, Lexes (d.enclose source).toList ((.opening d :: ys) ++ .opening e :: zs') fault := by
  obtain ⟨zs', fault, hrest⟩ := exists_lexes (spelled zs ++ [d.closing])
  obtain ⟨hall, hchain⟩ := fits_of_lexes hlex
  have hbefore : (ys ++ [Lexeme.opening e]).IsChain fun x y => x.mayPrecede y = true := by
    rw [← List.singleton_append, ← List.append_assoc] at hchain
    exact hchain.left_of_append
  have hjoined := lexes_join (fun x hx => hall x (List.mem_append_left _ hx)) hbefore
    (lexes_opening e hrest)
  have hsource : (d.enclose source).toList =
      d.opening :: (spelled ys ++ e.opening :: (spelled zs ++ [d.closing])) := by
    rw [toList_enclose, ← spelled_of_lexes hlex]
    simp [Lexeme.spelling]
  refine ⟨zs', fault, ?_⟩
  rw [hsource]
  exact lexes_opening d hjoined

/-- The first delimiter that the text opens at the largest depth is one too many. -/
theorem parse_enclose_of_opener {ys zs : List Lexeme} {e : Delimiter} (h : parse source = .ok t)
    (hlexemes : lexemesAll t = ys ++ .opening e :: zs) (d : Delimiter)
    (hroom : Shallow (maxDepth - 1) (ys.map Lexeme.tokenKind))
    (hopen : opens (ys.map Lexeme.tokenKind) = closes (ys.map Lexeme.tokenKind) + (maxDepth - 1)) :
    parse (φ := φ) (d.enclose source) =
      .error (.nestingTooDeep maxDepth (1 + byteSize (spelled ys))) := by
  obtain ⟨hlex, hf, hd⟩ := parse_eq_ok_iff.mp h
  obtain ⟨zs', fault, hlex'⟩ := exists_lexes_enclose (hlexemes ▸ hlex) d
  have hwhole := Builder.foldlM_empty_eq_ok_iff.mpr ⟨hf, hd, map_lexeme_place 1 (lexemesAll t)⟩
  rw [hlexemes, place_append, List.foldlM_append, bind_eq_ok_iff] at hwhole
  obtain ⟨c, hc, _⟩ := hwhole
  have hword : word (place 1 ys) = ys.map Lexeme.tokenKind := word_eq (map_lexeme_place 1 ys)
  have hlength := Builder.length_frames_of_holds (Builder.holds_of_foldlM hc)
  rw [← hword] at hroom hopen
  have hrun := Builder.foldlM_within_of_shallow ⟨d, 0, []⟩ hc hroom
  rw [← foldlM_opening] at hrun
  have hfull : (c.within ⟨d, 0, []⟩).add ⟨.opening e, 1 + byteSize (spelled ys)⟩ =
      .error (.nestingTooDeep maxDepth (1 + byteSize (spelled ys))) := by
    refine if_neg ?_
    simp only [Builder.within, List.length_append, List.length_singleton, maxDepth] at hopen ⊢
    omega
  have hstart : 1 + byteSize (spelled ys) = byteSize (spelled (.opening d :: ys)) := by
    rw [spelled_cons, byteSize_append]
    cases d <;> rfl
  exact parse_of_refused hlex' hstart hrun hfull

theorem parse_enclose_of_deepest (h : parse source = .ok t) (d : Delimiter)
    (hdeep : depthAll t = maxDepth) :
    ∃ ts us token, (tokenize source).map (List.map Placed.token) = .ok ts ∧
      FirstOpener maxDepth ts us token ∧
      parse (φ := φ) (d.enclose source) = .error (.nestingTooDeep maxDepth (1 + token.span.start)) := by
  obtain ⟨hlex, hf, _⟩ := parse_eq_ok_iff.mp h
  have hdeeper : ¬ Shallow (maxDepth - 1) ((lexemesAll t).map Lexeme.tokenKind) := by
    rw [shallow_lexemesAll_iff hf, hdeep]
    decide
  obtain ⟨u, e, v, hsplit, hroom, hopen⟩ := (shallow_or_exists _ _).resolve_left hdeeper
  obtain ⟨ys, rest, hlexemes, rfl, hrest⟩ := List.map_eq_append_iff.mp hsplit
  obtain ⟨x, zs, rfl, hx, _⟩ := List.map_eq_cons_iff.mp hrest
  obtain rfl := Lexeme.eq_opening_of_tokenKind hx
  have hplace : place 0 (lexemesAll t) = place 0 ys ++ ⟨.opening e, byteSize (spelled ys)⟩ ::
      place (byteSize (spelled ys) + (Lexeme.opening e).size) zs := by
    rw [hlexemes, place_append, Nat.zero_add, place]
  have hword : word (place 0 ys) = ys.map Lexeme.tokenKind := word_eq (map_lexeme_place 0 ys)
  refine ⟨(place 0 (lexemesAll t)).map Placed.token, (place 0 ys).map Placed.token,
    Placed.token ⟨.opening e, byteSize (spelled ys)⟩, ?_, ?_,
    parse_enclose_of_opener h hlexemes d hroom hopen⟩
  · rw [tokenize_of_lexes hlex]
    rfl
  · rw [hplace]
    exact firstOpener_of_shallow (hword ▸ hroom) (hword ▸ hopen)

/-- **What a text between delimiters reads as.**  With room for one more delimiter it is one group of
what the text reads as, unless a line comment at its end swallows the closing delimiter.  Without room,
the first delimiter that the text opens at the largest depth is one too many. -/
theorem parse_enclose (h : parse source = .ok t) (d : Delimiter) :
    (depthAll t < maxDepth → (∀ n ∈ t.getLast?, n.kind ≠ .lineComment) →
      parse (d.enclose source) = .ok [.group (some d) t]) ∧
    (depthAll t < maxDepth → (∃ n ∈ t.getLast?, n.kind = .lineComment) →
      parse (φ := φ) (d.enclose source) =
        .error (.missingClosing d.closing 0 (byteSize source.toList + 2))) ∧
    (depthAll t = maxDepth → ∃ ts us token, (tokenize source).map (List.map Placed.token) = .ok ts ∧
      FirstOpener maxDepth ts us token ∧ parse (φ := φ) (d.enclose source) =
        .error (.nestingTooDeep maxDepth (1 + token.span.start))) :=
  ⟨parse_enclose_of_room h d, parse_enclose_of_lineComment h d, parse_enclose_of_deepest h d⟩

def tower : Nat → List (Node φ)
  | 0 => []
  | n + 1 => [.group (some .paren) (tower n)]

theorem canonicalTree_tower {n : Nat} (h : n ≤ maxDepth) :
    CanonicalTree (tower (φ := φ) n) ∧ depthAll (tower (φ := φ) n) = n := by
  induction n with
  | zero => exact ⟨⟨⟨by simp [tower], .nil⟩, Nat.zero_le _⟩, rfl⟩
  | succ n ih =>
    obtain ⟨hcanonical, hdepth⟩ := ih (by omega)
    have hlast : ∀ m ∈ (tower (φ := φ) n).getLast?, m.kind ≠ .lineComment := by
      cases n <;> simp [tower, kind]
    have hgroup : (Node.group (φ := φ) (some .paren) (tower n)).Canonical :=
      canonical_fence_iff.mpr ⟨hcanonical.toCanonicalAll, hlast⟩
    have hdepth' : depthAll (tower (φ := φ) (n + 1)) = n + 1 := by
      rw [tower, depthAll, depthAll, depth_fence, hdepth]
      rfl
    exact ⟨⟨⟨by simpa [tower] using hgroup, .singleton _⟩, by omega⟩, hdepth'⟩

/-- A text that can be enclosed, one that ends with a line comment, and one that is as deep as may be. -/
theorem parse_enclose_three_texts :
    (∃ t : List (Node Snippet), parse "é[$1]" = .ok t ∧ depthAll t < maxDepth ∧
      parse (Delimiter.brace.enclose "é[$1]") = .ok [.group (some .brace) t]) ∧
    (∃ t : List (Node Snippet), parse "é--" = .ok t ∧ (∃ n ∈ t.getLast?, n.kind = .lineComment) ∧
      parse (φ := Snippet) (Delimiter.paren.enclose "é--") = .error (.missingClosing ')' 0 6)) ∧
    ∃ ts us token, FirstOpener maxDepth ts us token ∧
      parse (φ := Snippet) (Delimiter.paren.enclose (renderAll (tower (φ := Snippet) maxDepth))) =
        .error (.nestingTooDeep 512 (1 + token.span.start)) := by
  have hroom : parse (φ := Snippet) "é[$1]" = .ok
      [.leaf (.text "é"), .group (some .bracket) [.leaf (.ordinal ⟨1, 0⟩)]] := by
    with_unfolding_all rfl
  have hcomment : parse (φ := Snippet) "é--" = .ok
      [.leaf (.text "é"), .leaf (.lineComment "")] := by
    with_unfolding_all rfl
  obtain ⟨htower, hdepth⟩ := canonicalTree_tower (φ := Snippet) (Nat.le_refl maxDepth)
  obtain ⟨ts, us, token, _, hfirst, hdeep⟩ :=
    (parse_enclose (parse_renderAll_eq_ok_iff.mpr htower) .paren).2.2 hdepth
  refine ⟨⟨_, hroom, by decide, ?_⟩, ⟨_, hcomment, ⟨_, rfl, rfl⟩, ?_⟩, ts, us, token, hfirst, hdeep⟩
  · exact (parse_enclose hroom .brace).1 (by decide) (by simp [kind])
  · exact (parse_enclose hcomment .paren).2.1 (by decide) ⟨_, rfl, rfl⟩

end Parse

end LosslessSql
