import LosslessSql.Proofs.Boundaries
import LosslessSql.Proofs.Node.Spans
import LosslessSql.Proofs.Parse
import LosslessSql.Snippet

/-!
# Replacing a node of a tree that was read

The text of a tree that was read is its source, so the bytes of a slot are bytes of the source.  They begin
and end where tokens do, since a tree that was read is made of lexemes.  Another node in the slot, be it a
fragment, a bare group or anything else, is written in the place of these bytes and leaves the others as
they are; the result need not be a text that can be read.

* `Span.slice?_append`: the slice between two parts of a text.
* `ownsBytes_of_get?`: a slot owns its bytes.
* `within_of_parse`, `apart_of_not_comparable`: the bytes of two slots.
* `put?_changes_own_bytes`: **replacing a node changes its own bytes and no others.**
-/

namespace LosslessSql

open Node

variable {φ : Type} [Fragment φ]

/-- The slot at the end of a path, where `n` stands, owns the bytes in `span`: `t` is the tree that was
read from `source`, which has the given tokens. -/
structure OwnsBytes (source : String) (tokens : List Token) (t : List (Node φ)) (path : Path)
    (n : Node φ) (span : Span) : Prop where
  boundaries : ∃ i j, i ≤ j ∧ j ≤ tokens.length ∧ span = ⟨boundary tokens i, boundary tokens j⟩
  ordered : span.start ≤ span.stop
  text : span.slice? source = some n.render
  replaced : ∀ m, ∃ left right t', Span.slice? ⟨0, span.start⟩ source = some left ∧
    Span.slice? ⟨span.stop, byteSize source.toList⟩ source = some right ∧
    put? m path (.group none t) = some (.group none t') ∧ renderAll t' = left ++ m.render ++ right
  /-- It is the same to set the node in the group that holds the slot. -/
  throughGroup : ∀ m parent i, path = parent ++ [i] → ∃ fence children,
    (group none t).get? parent = some (.group fence children) ∧ children[i]? = some n ∧
    put? (.group fence (children.set i m)) parent (.group none t) = put? m path (.group none t)

/-! ### The bytes of one slot -/

theorem Span.slice?_append {source : String} {before middle behind : List Char}
    (h : source.toList = before ++ (middle ++ behind)) :
    slice? ⟨byteSize before, byteSize before + byteSize middle⟩ source =
      some (String.ofList middle) := by
  rw [slice?, h, cut?_append, Option.map_some]

theorem Span.slice?_front {source : String} {before rest : List Char} (h : source.toList = before ++ rest) :
    slice? ⟨0, byteSize before⟩ source = some (String.ofList before) := by
  have hsplit : source.toList = [] ++ (before ++ rest) := h
  have hslice := slice?_append hsplit
  rwa [byteSize_nil, Nat.zero_add] at hslice

theorem Span.slice?_back {source : String} {rest behind : List Char} (h : source.toList = rest ++ behind) :
    slice? ⟨byteSize rest, byteSize source.toList⟩ source = some (String.ofList behind) := by
  have hslice := slice?_append (h.trans (congrArg (rest ++ ·) (List.append_nil behind).symm))
  rwa [← byteSize_append, ← h] at hslice

theorem boundary_place_append (xs ys : List Lexeme) :
    boundary ((place 0 (xs ++ ys)).map Placed.token) xs.length = byteSize (spelled xs) := by
  rw [boundary_place, List.take_left]

/-- **What is put into a slot** is written between the texts around the slot. -/
theorem exists_renderAll_put? {t : List (Node φ)} {path : Path} (hpath : path ≠ []) {n : Node φ}
    (hget : (group none t).get? path = some n) (m : Node φ) :
    ∃ t', put? m path (.group none t) = some (.group none t') ∧
      renderAll t' = String.ofList (textBefore path (group none t)) ++ m.render ++
        String.ofList (textBehind path (group none t)) := by
  obtain ⟨root, hput⟩ := exists_put? hget m
  have hgroup := hput
  rw [put?_group m hpath] at hgroup
  obtain ⟨t', _, rfl⟩ := Option.map_eq_some_iff.mp hgroup
  refine ⟨t', hput, ?_⟩
  rw [renderAll, ← spelling_bare, spelling_put? hput, String.ofList_append, String.ofList_append,
    String.append_assoc]
  rfl

/-- **A slot of a tree that was read owns its bytes.** -/
theorem ownsBytes_of_get? {source : String} {t : List (Node φ)} (h : parse source = .ok t) {path : Path}
    (hpath : path ≠ []) {n : Node φ} (hget : (group none t).get? path = some n) :
    OwnsBytes source ((place 0 (lexemesAll t)).map Placed.token) t path n
      ⟨byteSize (textBefore path (group none t)),
        byteSize (textBefore path (group none t)) + byteSize n.spelling⟩ := by
  obtain ⟨_, hfenced, _⟩ := parse_eq_ok_iff.mp h
  obtain ⟨hn, xs, ys, hlexemes, hbefore⟩ := exists_lexemesAll_around hfenced hpath hget
  have hsource : source.toList = textBefore path (group none t) ++
      (n.spelling ++ textBehind path (group none t)) := by
    rw [← spelling_get? hget, spelling_bare, spellAll_of_parse h]
  have hcount : (place 0 (lexemesAll t)).length = (lexemesAll t).length := by
    rw [← List.length_map (f := Placed.lexeme), map_lexeme_place]
  have hstart := boundary_place_append xs (n.lexemes ++ ys)
  have hstop := boundary_place_append (xs ++ n.lexemes) ys
  rw [List.append_assoc, spelled_append, byteSize_append, spelled_lexemes hn] at hstop
  rw [← hlexemes, hbefore] at hstart hstop
  refine ⟨⟨xs.length, (xs ++ n.lexemes).length, ?_, ?_, ?_⟩, ?_, ?_, ?_, ?_⟩
  · rw [List.length_append]
    omega
  · rw [List.length_map, hcount, hlexemes, List.length_append, List.length_append, List.length_append]
    omega
  · rw [hstart, hstop]
  · exact Nat.le_add_right _ _
  · exact Span.slice?_append hsource
  · intro m
    obtain ⟨t', hput, hrender⟩ := exists_renderAll_put? hpath hget m
    refine ⟨_, _, t', Span.slice?_front hsource, ?_, hput, hrender⟩
    rw [← List.append_assoc] at hsource
    have hback := Span.slice?_back hsource
    rwa [byteSize_append] at hback
  · rintro m parent i rfl
    exact exists_group_put? hget m

/-! ### The bytes of two slots -/

/-- **The bytes of a slot below another lie inside its bytes**: the other slot holds a fenced group, since
a tree that was read has no others. -/
theorem within_of_parse {source : String} {t : List (Node φ)} (h : parse source = .ok t) {p q : Path}
    {a b : Span} (hp : p ≠ []) (hpq : p ≠ q) (ha : slotSpan? p (group none t) = some a)
    (hb : slotSpan? q (group none t) = some b) (hbelow : p <+: q) : b.Within a := by
  obtain ⟨_, hfenced, _⟩ := parse_eq_ok_iff.mp h
  obtain ⟨m, hm, _⟩ := slotSpan?_eq_some_iff.mp ha
  obtain ⟨n, hn, _⟩ := slotSpan?_eq_some_iff.mp hb
  obtain ⟨hgroup, _⟩ := exists_lexemesAll_around hfenced hp hm
  obtain ⟨rest, rfl⟩ := hbelow
  have hrest : rest ≠ [] := by
    rintro rfl
    exact hpq (List.append_nil p).symm
  obtain ⟨i, rest, rfl⟩ := List.exists_cons_of_ne_nil hrest
  rw [get?_append, hm, Option.bind_some] at hn
  obtain ⟨fence, children, _, rfl, _⟩ := get?_cons_eq_some_iff.mp hn
  obtain ⟨d, rfl⟩ := Option.isSome_iff_exists.mp hgroup.1
  exact within_of_append hm hrest ha hb

theorem apart_of_not_comparable {root : Node φ} {p q : Path} {a b : Span}
    (ha : slotSpan? p root = some a) (hb : slotSpan? q root = some b) (hp : ¬ p <+: q) (hq : ¬ q <+: p) :
    a.Apart b := by
  obtain ⟨m, hm, rfl⟩ := slotSpan?_eq_some_iff.mp ha
  obtain ⟨n, hn, rfl⟩ := slotSpan?_eq_some_iff.mp hb
  have hpq : p ≠ q := by
    rintro rfl
    exact hp List.prefix_rfl
  rcases lt_or_gt_of_ne hpq with hlt | hlt
  · exact Or.inl (apart_of_lt hm hn hlt hp)
  · exact Or.inr (apart_of_lt hn hm hlt hq)

/-- **Replacing a node changes its own bytes and no others.**  Every slot of a tree that was read, the root
apart, owns some bytes of the source, whose ends are boundaries of tokens: they hold the text of its node,
and any other node in the slot is written in their place.  The bytes of two different slots lie inside each
other if one slot is below the other, and otherwise they have nothing in common. -/
theorem put?_changes_own_bytes {source : String} {t : List (Node φ)} (h : parse source = .ok t) :
    ∃ tokens, (tokenize source).map (List.map Placed.token) = .ok tokens ∧
      (∀ path n, path ≠ [] → (group none t).get? path = some n →
        ∃ span, slotSpan? path (group none t) = some span ∧ OwnsBytes source tokens t path n span) ∧
      ∀ p q a b, p ≠ [] → q ≠ [] → p ≠ q → slotSpan? p (group none t) = some a →
        slotSpan? q (group none t) = some b →
        (p <+: q → b.Within a) ∧ (¬ p <+: q → ¬ q <+: p → a.Apart b) := by
  obtain ⟨hlexes, _, _⟩ := parse_eq_ok_iff.mp h
  refine ⟨(place 0 (lexemesAll t)).map Placed.token, ?_, ?_, ?_⟩
  · rw [tokenize_of_lexes hlexes]
    rfl
  · intro path n hpath hget
    exact ⟨_, slotSpan?_eq_some_iff.mpr ⟨n, hget, rfl⟩, ownsBytes_of_get? h hpath hget⟩
  · intro p q a b hp _ hpq ha hb
    exact ⟨within_of_parse h hp hpq ha hb, apart_of_not_comparable ha hb⟩

/-- A parameter in brackets behind a character of two bytes, replaced by a bare group. -/
theorem put?_changes_own_bytes_bracketed :
    ∃ t : List (Node Snippet), parse "é[$01]--" = .ok t ∧
      (group none t).get? [1, 0] = some (.leaf (.ordinal ⟨1, 1⟩)) ∧
      ∃ tokens, (tokenize "é[$01]--").map (List.map Placed.token) = .ok tokens ∧
        OwnsBytes "é[$01]--" tokens t [1, 0] (.leaf (.ordinal ⟨1, 1⟩)) ⟨3, 6⟩ ∧
        Span.Within ⟨3, 6⟩ ⟨2, 7⟩ ∧ Span.Apart ⟨3, 6⟩ ⟨7, 9⟩ := by
  have hparse : parse (φ := Snippet) "é[$01]--" = .ok [.leaf (.text "é"),
      .group (some .bracket) [.leaf (.ordinal ⟨1, 1⟩)], .leaf (.lineComment "")] := by
    with_unfolding_all rfl
  obtain ⟨tokens, htokens, howns, hslots⟩ := put?_changes_own_bytes hparse
  obtain ⟨span, hspan, hown⟩ := howns [1, 0] (.leaf (.ordinal ⟨1, 1⟩)) (by decide) rfl
  obtain rfl : (⟨3, 6⟩ : Span) = span := by
    apply Option.some.inj
    rw [← hspan]
    rfl
  have hgroup := hslots [1] [1, 0] ⟨2, 7⟩ ⟨3, 6⟩ (by decide) (by decide) (by decide) (rfl) hspan
  have hcomment := hslots [1, 0] [2] ⟨3, 6⟩ ⟨7, 9⟩ (by decide) (by decide) (by decide) hspan (rfl)
  exact ⟨_, hparse, rfl, tokens, htokens, hown, hgroup.1 (by decide),
    hcomment.2 (by decide) (by decide)⟩

end LosslessSql
