import LosslessSql.Proofs.Lexeme.Sequence

/-!
# The lexeme of a token

A token has only a kind and a span; what it stands for is cut out of the source, and the marks are cut
away by size.  A token that was made from a lexeme gives that lexeme back.

* `Placed.StandsIn`: a lexeme is spelled in the source at its offset.
* `Token.lexeme?`: the leaf or delimiter that a token stands for.
* `text?_token`, `leaf?_token`: the text and the leaf of such a token.
* `lexeme?_token`: **the token of a lexeme that stands in the source stands for that lexeme.**
-/

namespace LosslessSql

def Lexeme.leaf? : Lexeme → Option Leaf
  | .leaf l => some l
  | _ => none

theorem Lexeme.leaf?_eq_some_iff {x : Lexeme} {l : Leaf} : x.leaf? = some l ↔ x = .leaf l := by
  cases x <;> simp [leaf?]

/-- A lexeme is spelled in the source at its offset. -/
def Placed.StandsIn (p : Placed) (source : String) : Prop :=
  ∃ left right, source.toList = left ++ (p.lexeme.spelling ++ right) ∧ byteSize left = p.start

theorem Placed.standsIn_of_lexes {source : String} {xs : List Lexeme} {fault : Option Fault}
    (h : Lexes source.toList xs fault) {p : Placed} (hp : p ∈ place 0 xs) : p.StandsIn source := by
  obtain ⟨tail, happ, _⟩ := append_of_lexes h
  have hplace : p ∈ place (byteSize []) xs := hp
  obtain ⟨left, right, he, hstart⟩ := splits_of_mem_place hplace tail
  exact ⟨left, right, happ.trans he, hstart⟩

namespace Token

/-- What a token stands for: its delimiter, or its leaf. -/
def lexeme? (t : Token) (source : String) : Option Lexeme :=
  match t.kind with
  | .opening d => some (.opening d)
  | .closing d => some (.closing d)
  | _ => (t.leaf? source).join.map .leaf

theorem inner?_append (front body back : List Char) :
    inner? (byteSize front) (byteSize back) (front ++ (body ++ back)) = some body := by
  have hsize : byteSize (front ++ (body ++ back)) - byteSize back = byteSize front + byteSize body := by
    rw [byteSize_append, byteSize_append]
    omega
  rw [inner?, hsize, Span.cut?_append]

theorem byteSize_mark (q : Quote) : byteSize [q.mark] = 1 := by
  cases q <;> rfl

/-- **The leaf of a spelling.** -/
theorem leafOfText?_spelling (l : Leaf) : leafOfText? l.tokenKind l.spelling = some (some l) := by
  cases l with
  | text s => rw [Leaf.tokenKind, Leaf.spelling, leafOfText?, String.ofList_toList]
  | space s => rw [Leaf.tokenKind, Leaf.spelling, leafOfText?, String.ofList_toList]
  | quoted q body =>
    have hinner := inner?_append [q.mark] body.toList [q.mark]
    rw [byteSize_mark, List.singleton_append] at hinner
    rw [Leaf.tokenKind, Leaf.spelling, leafOfText?, hinner, Option.map_some, String.ofList_toList]
  | lineComment body =>
    have hinner : inner? 2 0 ('-' :: '-' :: body.toList) = some body.toList := by
      have h := inner?_append ['-', '-'] body.toList []
      rw [List.append_nil] at h
      exact h
    rw [Leaf.tokenKind, Leaf.spelling, leafOfText?, hinner, Option.map_some, String.ofList_toList]
  | blockComment body =>
    have hinner : inner? 2 2 ('/' :: '*' :: (body.toList ++ ['*', '/'])) = some body.toList :=
      inner?_append ['/', '*'] body.toList ['*', '/']
    rw [Leaf.tokenKind, Leaf.spelling, leafOfText?, hinner, Option.map_some, String.ofList_toList]
  | cast => rfl
  | ordinal o => rfl
  | named name =>
    have hinner : inner? 1 0 (':' :: name.toList) = some name.toList := by
      have h := inner?_append [':'] name.toList []
      rw [List.append_nil] at h
      exact h
    rw [Leaf.tokenKind, Leaf.spelling, leafOfText?, hinner, Option.map_some, String.ofList_toList]

theorem lexeme?_of_leaf? {kind : TokenKind} {span : Span} {source : String} {l : Leaf}
    (h : (Token.mk kind span).leaf? source = some (some l)) (hkind : kind = l.tokenKind) :
    (Token.mk kind span).lexeme? source = some (.leaf l) := by
  subst hkind
  cases l <;> rw [lexeme?, h] <;> rfl

/-! ### Tokens of lexemes that stand in the source -/

section StandsIn

variable {source : String} {p : Placed}

theorem cut?_token (h : p.StandsIn source) :
    p.token.span.cut? source.toList = some p.lexeme.spelling := by
  obtain ⟨left, right, happ, hstart⟩ := h
  obtain ⟨x, start⟩ := p
  obtain rfl : byteSize left = start := hstart
  rw [happ]
  exact Span.cut?_append left x.spelling right

theorem text?_token (h : p.StandsIn source) :
    p.token.text? source = some (String.ofList p.lexeme.spelling) := by
  rw [text?, Span.slice?, cut?_token h, Option.map_some]

theorem leaf?_token (h : p.StandsIn source) : p.token.leaf? source = some p.lexeme.leaf? := by
  rw [leaf?, cut?_token h]
  show leafOfText? p.lexeme.tokenKind p.lexeme.spelling = _
  cases p.lexeme with
  | leaf l => exact leafOfText?_spelling l
  | opening d => rfl
  | closing d => rfl

/-- **The token of a lexeme that stands in the source stands for that lexeme.** -/
theorem lexeme?_token (h : p.StandsIn source) : p.token.lexeme? source = some p.lexeme := by
  have hleaf := leaf?_token h
  obtain ⟨x, start⟩ := p
  cases x with
  | leaf l => exact lexeme?_of_leaf? hleaf rfl
  | opening d => rfl
  | closing d => rfl

end StandsIn

end Token

end LosslessSql
