import LosslessSql.Proofs.Cursor.Basic
import LosslessSql.Proofs.Token
import LosslessSql.Proofs.TokenStream.Unbuffered

/-!
# The rules at an offset

An offset at which a character begins cuts the source in two, `source.toList = left ++ right` with
`byteSize left` bytes before it.  Every access of a rule is then an access to `right`, or to what follows
a mark at its head, so none goes wrong; and a rule by offsets finds what its rule on texts finds in
`right`.

* `bytesFrom?_append`, `textFrom?_append`: what an access at such an offset gives.
* `Agrees`: a rule by offsets finds what a rule on texts finds; `agrees_of_mark`, `agrees_of_sign`: the
  rules that wait for two characters, and for one.
* `scan?_eq`: **all rules together find what `structured?` finds**, and no access goes wrong.
-/

namespace LosslessSql.Cursor

/-! ### Accesses where a character begins -/

theorem size_eq (source : String) : size source = byteSize source.toList := by
  rw [size, bytes, toList_toByteArray, length_utf8]

section Accesses

variable {source : String} {left right : List Char}

theorem drop_bytes (h : source.toList = left ++ right) :
    (bytes source).drop (byteSize left) = utf8 right := by
  rw [bytes, toList_toByteArray, h, utf8_append, ← length_utf8 left, List.drop_left]

theorem bytesFrom?_append (h : source.toList = left ++ right) :
    bytesFrom? source (byteSize left) = some (utf8 right) := by
  have hle : byteSize left ≤ size source := by
    rw [size_eq, h, byteSize_append]
    omega
  rw [bytesFrom?, if_pos hle, drop_bytes h]

theorem textFrom?_append (h : source.toList = left ++ right) :
    textFrom? source (byteSize left) = some right := by
  rw [textFrom?, h, splitAtByte?_append, Option.map_some]

theorem bytesFrom?_behind {m : List Char} (h : source.toList = left ++ (m ++ right)) :
    bytesFrom? source (byteSize left + byteSize m) = some (utf8 right) := by
  rw [← byteSize_append]
  exact bytesFrom?_append (by rw [h, List.append_assoc])

theorem textFrom?_behind {m : List Char} (h : source.toList = left ++ (m ++ right)) :
    textFrom? source (byteSize left + byteSize m) = some right := by
  rw [← byteSize_append]
  exact textFrom?_append (by rw [h, List.append_assoc])

theorem cut?_behind {m middle : List Char} (h : source.toList = left ++ (m ++ (middle ++ right))) :
    Span.cut? ⟨byteSize left + byteSize m, byteSize left + byteSize m + byteSize middle⟩
      source.toList = some middle := by
  rw [h, ← List.append_assoc, ← byteSize_append]
  exact Span.cut?_append (left ++ m) middle right

end Accesses

/-! ### One rule -/

/-- What a rule on texts finds, by offsets into a source of `size` bytes. -/
def located (start size : Nat) : Except Fault Cut → Except ParseError (TokenKind × Nat)
  | .error f => .error (f.locate start size)
  | .ok cut => .ok (cut.lexeme.tokenKind, start + cut.lexeme.size)

/-- A rule by offsets finds what a rule on texts finds. -/
def Agrees (byteRule : ByteRule) (rule : Rule) : Prop :=
  ∀ {source : String} {left cs : List Char} {c : Char} {b : UInt8},
    source.toList = left ++ c :: cs → b ∈ String.utf8EncodeChar c →
      byteRule source (Char.ofUInt8 b) (byteSize left) =
        some ((rule (c :: cs)).map (located (byteSize left) (byteSize source.toList)))

theorem located_leaf (start size : Nat) (l : Leaf) (rest : List Char) :
    located start size (.ok ⟨.leaf l, rest⟩) = .ok (l.tokenKind, start + byteSize l.spelling) :=
  rfl

theorem agrees_space : Agrees ByteRule.space Rule.space := by
  intro source left cs c b h hb
  simp only [ByteRule.space, apply_ofUInt8 uniform_isBlank hb, drop_bytes h,
    takeWhile_utf8 uniform_isBlank, length_utf8, Rule.space]
  cases hc : isBlank c with
  | false => simp [hc]
  | true => simp [hc, located_leaf, Leaf.tokenKind, Leaf.spelling]

theorem agrees_quoted : Agrees ByteRule.quoted Rule.quoted := by
  intro source left cs c b h hb
  rw [ByteRule.quoted, apply_ofUInt8 uniform_ofMark? hb, Rule.quoted]
  cases hq : Quote.ofMark? c with
  | none => rfl
  | some q =>
    obtain rfl : c = q.mark := Quote.ofMark?_eq_some_iff.mp hq
    have hm : q.mark.utf8Size = 1 := Token.byteSize_mark q
    have hbody : bytesFrom? source (byteSize left + 1) = some (utf8 cs) := by
      rw [← Token.byteSize_mark q]
      exact bytesFrom?_behind h
    -- The closing mark is searched among bytes here and among characters there.
    have hfind := findIdx?_utf8 (uniform_beq (mark_lt q)) cs
    have hne : (fun c : Char => !(c == q.mark)) = (· != q.mark) := rfl
    rw [offsetOf?_any, hne] at hfind
    simp only [hbody, Option.bind_eq_bind, Option.bind_some, hfind, Option.map_some]
    cases hd : cs.dropWhile (· != q.mark) with
    | nil => simp [located, Fault.locate, size_eq]
    | cons d rest =>
      simp [located_leaf, Leaf.tokenKind, Leaf.spelling, hm]
      omega

/-- A rule that applies exactly where its mark stands.  Where the mark is missing, only the text at the
offset is looked at. -/
theorem agrees_of_mark {m : List Char} {byteRule : ByteRule} {rule : Rule}
    (hother : ∀ {cs}, ¬ m <+: cs → rule cs = none)
    (hmissing : ∀ {source : String} {c : Char} {start : Nat} {cs : List Char},
      textFrom? source start = some cs → ¬ m <+: cs → byteRule source c start = some none)
    (hmark : ∀ {source : String} {c : Char} {left body : List Char},
      source.toList = left ++ (m ++ body) → byteRule source c (byteSize left) =
        some ((rule (m ++ body)).map (located (byteSize left) (byteSize source.toList)))) :
    Agrees byteRule rule := by
  intro source left cs c b h hb
  by_cases hc : m <+: c :: cs
  · obtain ⟨body, hbody⟩ := hc
    rw [← hbody] at h ⊢
    exact hmark h
  · rw [hother hc, hmissing (textFrom?_append h) hc]
    rfl

theorem agrees_lineComment : Agrees ByteRule.lineComment Rule.lineComment := by
  refine agrees_of_mark (m := ['-', '-']) ?_ ?_ ?_
  · intro cs hcs
    unfold Rule.lineComment
    split
    · exact absurd ⟨_, rfl⟩ hcs
    · rfl
  · intro source c start cs htext hcs
    simp [ByteRule.lineComment, htext, hcs]
  · intro source c left body h
    have hbehind : textFrom? source (byteSize left + 2) = some body := textFrom?_behind h
    have hdash : '-'.utf8Size = 1 := rfl
    simp [ByteRule.lineComment, textFrom?_append h, hbehind, offsetOf?_any_getD, Rule.lineComment,
      located_leaf, Leaf.tokenKind, Leaf.spelling, hdash]
    omega

theorem agrees_blockComment : Agrees ByteRule.blockComment Rule.blockComment := by
  refine agrees_of_mark (m := ['/', '*']) ?_ ?_ ?_
  · intro cs hcs
    unfold Rule.blockComment
    split
    · exact absurd ⟨_, rfl⟩ hcs
    · rfl
  · intro source c start cs htext hcs
    simp [ByteRule.blockComment, htext, hcs]
  · intro source c left body h
    have hbehind : textFrom? source (byteSize left + 2) = some body := textFrom?_behind h
    have hslash : '/'.utf8Size = 1 := rfl
    have hstar : '*'.utf8Size = 1 := rfl
    simp only [ByteRule.blockComment, textFrom?_append h, hbehind, offsetOf?_isPrefixOf,
      Rule.blockComment, List.cons_append, List.nil_append]
    cases hend : Rule.splitCommentEnd? body with
    | none => simp [located, Fault.locate, size_eq, hend]
    | some found =>
      simp [located_leaf, Leaf.tokenKind, Leaf.spelling, hend, hslash, hstar]
      omega

theorem agrees_cast : Agrees ByteRule.cast Rule.cast := by
  refine agrees_of_mark (m := [':', ':']) ?_ ?_ ?_
  · intro cs hcs
    unfold Rule.cast
    split
    · exact absurd ⟨_, rfl⟩ hcs
    · rfl
  · intro source c start cs htext hcs
    simp [ByteRule.cast, htext, hcs]
  · intro source c left body h
    simp [ByteRule.cast, textFrom?_append h, Rule.cast]
    rfl

theorem agrees_of_sign {m : Char} {byteRule : ByteRule} {rule : Rule} (hm : m.toNat < 128)
    (hother : ∀ {c cs}, c ≠ m → rule (c :: cs) = none)
    (hmissing : ∀ {source c start}, c ≠ m → byteRule source c start = some none)
    (hsign : ∀ {source : String} {left cs : List Char}, source.toList = left ++ m :: cs →
      byteRule source m (byteSize left) =
        some ((rule (m :: cs)).map (located (byteSize left) (byteSize source.toList)))) :
    Agrees byteRule rule := by
  intro source left cs c b h hb
  have hbyte := ofUInt8_eq_iff hm hb
  by_cases hc : c = m
  · rw [hbyte.mpr hc]
    subst hc
    exact hsign h
  · rw [hother hc, hmissing (mt hbyte.mp hc)]
    rfl

theorem cut?_digits {source : String} {left cs : List Char} (h : source.toList = left ++ '$' :: cs) :
    Span.cut? ⟨byteSize left + 1, byteSize left + 1 + byteSize (cs.takeWhile Char.isDigit)⟩
      source.toList = some (cs.takeWhile Char.isDigit) := by
  have hsource : source.toList =
      left ++ (['$'] ++ (cs.takeWhile Char.isDigit ++ cs.dropWhile Char.isDigit)) := by
    rw [List.takeWhile_append_dropWhile, h, List.singleton_append]
  exact cut?_behind hsource

theorem agrees_ordinal : Agrees ByteRule.ordinal Rule.ordinal := by
  refine agrees_of_sign (m := '$') (by decide) ?_ ?_ ?_
  · intro c cs hc
    unfold Rule.ordinal
    split
    · next he => exact absurd (List.cons.inj he).1 hc
    · rfl
  · intro source c start hc
    rw [ByteRule.ordinal, if_neg hc]
  · intro source left cs h
    have hbehind : bytesFrom? source (byteSize left + 1) = some (utf8 cs) :=
      bytesFrom?_behind (m := ['$']) h
    have hsize : byteSize (cs.takeWhile Char.isDigit) = (cs.takeWhile Char.isDigit).length :=
      Unbuffered.byteSize_of_isDigit fun d hd => List.mem_takeWhile_imp hd
    have hcut := cut?_digits h
    rw [hsize] at hcut
    simp only [ByteRule.ordinal, if_true, hbehind, Option.bind_eq_bind, Option.bind_some,
      takeWhile_utf8 uniform_isDigit, length_utf8, hsize, hcut, Rule.ordinal]
    cases hrun : cs.takeWhile Char.isDigit with
    | nil => rfl
    | cons d ds =>
      rw [hrun] at hsize
      cases ho : Ordinal.ofDigits? (d :: ds) with
      | none => simp [ho, located, Fault.locate]
      | some o =>
        have hdollar : '$'.utf8Size = 1 := rfl
        simp [ho, located_leaf, Leaf.tokenKind, Leaf.spelling, Ordinal.spelling_of_ofDigits? ho,
          hdollar, hsize, Nat.add_assoc]

theorem agrees_named : Agrees ByteRule.named Rule.named := by
  refine agrees_of_sign (m := ':') (by decide) ?_ ?_ ?_
  · intro c cs hc
    unfold Rule.named
    split
    · next he => exact absurd (List.cons.inj he).1 hc
    · rfl
  · intro source c start hc
    rw [ByteRule.named, if_neg hc]
  · intro source left cs h
    have hbehind : bytesFrom? source (byteSize left + 1) = some (utf8 cs) :=
      bytesFrom?_behind (m := [':']) h
    simp only [ByteRule.named, if_true, hbehind, Option.bind_eq_bind, Option.bind_some,
      takeWhile_utf8 uniform_isNamePart, length_utf8]
    cases cs with
    | nil => rfl
    | cons d cs =>
      -- Any byte tells the class of its character, so the first one may stand for it.
      obtain ⟨b, hb, hmem⟩ := exists_head_utf8 d cs
      rw [hb, Option.any_some, apply_ofUInt8 uniform_isNameStart hmem, Rule.named]
      cases hd : isNameStart d with
      | false => rfl
      | true =>
        have hcolon : ':'.utf8Size = 1 := rfl
        simp [Rule.isNamePart_of_isNameStart hd, located_leaf, Leaf.tokenKind, Leaf.spelling, hcolon,
          Nat.add_assoc]

theorem agrees_opening : Agrees ByteRule.opening Rule.opening := by
  intro source left cs c b h hb
  rw [ByteRule.opening, apply_ofUInt8 uniform_ofOpening? hb, Rule.opening, Option.map_map]
  cases Delimiter.ofOpening? c with
  | none => rfl
  | some d => cases d <;> rfl

theorem agrees_closing : Agrees ByteRule.closing Rule.closing := by
  intro source left cs c b h hb
  rw [ByteRule.closing, apply_ofUInt8 uniform_ofClosing? hb, Rule.closing, Option.map_map]
  cases Delimiter.ofClosing? c with
  | none => rfl
  | some d => cases d <;> rfl

/-! ### All rules -/

theorem agrees_all : List.Forall₂ Agrees ByteRule.all Rule.all :=
  .cons agrees_space <| .cons agrees_quoted <| .cons agrees_lineComment <| .cons agrees_blockComment <|
    .cons agrees_cast <| .cons agrees_ordinal <| .cons agrees_named <| .cons agrees_opening <|
    .cons agrees_closing .nil

theorem first?_of_agrees {byteRules : List ByteRule} {rules : List Rule}
    (hrules : List.Forall₂ Agrees byteRules rules) {source : String} {left cs : List Char} {c : Char}
    {b : UInt8} (h : source.toList = left ++ c :: cs) (hb : b ∈ String.utf8EncodeChar c) :
    ByteRule.first? source (Char.ofUInt8 b) (byteSize left) byteRules =
      some ((rules.findSome? fun rule => rule (c :: cs)).map
        (located (byteSize left) (byteSize source.toList))) := by
  induction hrules with
  | nil => rfl
  | @cons byteRule rule byteRules rules hrule _ ih =>
    rw [ByteRule.first?, hrule h hb, List.findSome?_cons]
    cases rule (c :: cs) with
    | none => exact ih
    | some found => rfl

/-- **At the beginning of a character, and at the end, the rules by offsets find what the rules on texts
find**, and no access goes wrong. -/
theorem scan?_eq {source : String} {left right : List Char} (h : source.toList = left ++ right) :
    scan? source (byteSize left) =
      some ((structured? right).map (located (byteSize left) (byteSize source.toList))) := by
  have hbyte : byteAt? source (byteSize left) = (utf8 right).head? := by
    rw [byteAt?, ← List.head?_drop, drop_bytes h]
  cases right with
  | nil => rw [scan?, hbyte]; rfl
  | cons c cs =>
    obtain ⟨b, hhead, hb⟩ := exists_head_utf8 c cs
    rw [scan?, hbyte, hhead]
    exact first?_of_agrees agrees_all h hb

end LosslessSql.Cursor
