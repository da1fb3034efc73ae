import LosslessSql.Node.Builder
import LosslessSql.Proofs.Text.Utf8

/-!
# Reading by byte offset

A cursor keeps no text, only byte offsets into a source.  It looks at one byte, takes the bytes or the
text from an offset on, and searches them.  Such an access can go wrong: the offset lies beyond the end,
the ends of a stretch are reversed, or, where a text is taken, an end lies inside a character.  Then the
access answers `none`, and so does everything that rests on it.

* `scan?`: the rules, tried in turn on the bytes at an offset.
* `next?`: one request; `requests?`: any number of them.
* `tokenize?`, `parse?`: all tokens, and the tree, of a source.
* `remaining_lt_of_next?`: every token handed out brings the end nearer.
-/

namespace LosslessSql

/-- Where a reading by offsets has come to.  A token that was read behind a plain run is `pending`
until the next request. -/
structure Cursor where
  position : Nat
  pending : Option Token
  failed : Bool
deriving DecidableEq, Repr

namespace Cursor

def start : Cursor :=
  ⟨0, none, false⟩

/-! ### Accesses -/

section Accesses

variable (source : String)

def bytes : List UInt8 :=
  source.toByteArray.data.toList

def size : Nat :=
  (bytes source).length

/-- The byte at an offset; beyond the end there is none to see. -/
def byteAt? (offset : Nat) : Option UInt8 :=
  (bytes source)[offset]?

def bytesFrom? (offset : Nat) : Option (List UInt8) :=
  if offset ≤ size source then some ((bytes source).drop offset) else none

def textFrom? (offset : Nat) : Option (List Char) :=
  (splitAtByte? offset source.toList).map Prod.snd

end Accesses

/-! ### The rules -/

/-- What stands at an offset: a token of some kind that ends at another offset, or an error; `none`
where a rule does not apply. -/
abbrev Found := Option (Except ParseError (TokenKind × Nat))

/-- A rule is given the source, its byte at an offset as the character with that code, and the
offset. -/
abbrev ByteRule := String → Char → Nat → Option Found

namespace ByteRule

def space : ByteRule := fun source c start =>
  if isBlank c then
    let blanks := ((bytes source).drop start).takeWhile fun b => isBlank (Char.ofUInt8 b)
    some (some (.ok (.space, start + blanks.length)))
  else
    some none

/-- The closing mark is searched among the bytes. -/
def quoted : ByteRule := fun source c start =>
  match Quote.ofMark? c with
  | none => some none
  | some q => do
    let body ← bytesFrom? source (start + 1)
    match body.findIdx? fun b => Char.ofUInt8 b == q.mark with
    | some offset => some (some (.ok (.quoted q, start + 1 + offset + 1)))
    | none => some (some (.error (.unterminatedQuote q.mark ⟨start, size source⟩)))

def lineComment : ByteRule := fun source _ start => do
  let text ← textFrom? source start
  if ['-', '-'].isPrefixOf text then
    let body ← textFrom? source (start + 2)
    let length := (offsetOf? (fun cs => cs.head?.any isLineBreak) body).getD (byteSize body)
    some (some (.ok (.lineComment, start + 2 + length)))
  else
    some none

def blockComment : ByteRule := fun source _ start => do
  let text ← textFrom? source start
  if ['/', '*'].isPrefixOf text then
    let body ← textFrom? source (start + 2)
    match offsetOf? (['*', '/'].isPrefixOf ·) body with
    | some offset => some (some (.ok (.blockComment, start + 2 + offset + 2)))
    | none => some (some (.error (.unterminatedComment ⟨start, size source⟩)))
  else
    some none

def cast : ByteRule := fun source _ start => do
  let text ← textFrom? source start
  some (if [':', ':'].isPrefixOf text then some (.ok (.cast, start + 2)) else none)

/-- The digits are counted among the bytes, and the stretch of the source that they make up is read. -/
def ordinal : ByteRule := fun source c start =>
  if c = '$' then do
    let behind ← bytesFrom? source (start + 1)
    let count := (behind.takeWhile fun b => (Char.ofUInt8 b).isDigit).length
    if count = 0 then
      some none
    else
      let digits ← Span.cut? ⟨start + 1, start + 1 + count⟩ source.toList
      match Ordinal.ofDigits? digits with
      | none => some (some (.error (.ordinalOutOfRange ⟨start, start + 1 + count⟩)))
      | some o => some (some (.ok (.ordinal o, start + 1 + count)))
  else
    some none

def named : ByteRule := fun source c start =>
  if c = ':' then do
    let behind ← bytesFrom? source (start + 1)
    if behind.head?.any fun b => isNameStart (Char.ofUInt8 b) then
      let count := (behind.takeWhile fun b => isNamePart (Char.ofUInt8 b)).length
      some (some (.ok (.named, start + 1 + count)))
    else
      some none
  else
    some none

def opening : ByteRule := fun _ c start =>
  some ((Delimiter.ofOpening? c).map fun d => .ok (.opening d, start + 1))

def closing : ByteRule := fun _ c start =>
  some ((Delimiter.ofClosing? c).map fun d => .ok (.closing d, start + 1))

def all : List ByteRule :=
  [space, quoted, lineComment, blockComment, cast, ordinal, named, opening, closing]

/-- What the first rule that applies finds; the rules behind it make no access. -/
def first? (source : String) (c : Char) (start : Nat) : List ByteRule → Option Found
  | [] => some none
  | rule :: rules =>
    match rule source c start with
    | none => none
    | some none => first? source c start rules
    | some found => some found

end ByteRule

section Reading

variable (source : String)

def scan? (start : Nat) : Option Found :=
  match byteAt? source start with
  | none => some none
  | some b => ByteRule.first? source (Char.ofUInt8 b) start ByteRule.all

def width? (offset : Nat) : Option Nat :=
  (textFrom? source offset).map fun text => (text.head?.map Char.utf8Size).getD 1

theorem width?_pos {offset width : Nat} (h : width? source offset = some width) : 0 < width := by
  obtain ⟨text, _, rfl⟩ := Option.map_eq_some_iff.mp h
  cases text with
  | nil => exact Nat.one_pos
  | cons c cs => exact c.utf8Size_pos

/-! ### Requests -/

abbrev Answer := Option (Except ParseError Token)

/-- The token of a kind in `mid..stop`, or the plain run in `start..mid` before it, which leaves the token
pending.  A token that is empty goes wrong as well. -/
def choose? (start mid : Nat) (kind : TokenKind) (stop : Nat) : Option (Answer × Cursor) :=
  if stop ≤ mid then
    none
  else if start < mid then
    some (some (.ok ⟨.text, ⟨start, mid⟩⟩), ⟨stop, some ⟨kind, ⟨mid, stop⟩⟩, false⟩)
  else
    some (some (.ok ⟨kind, ⟨mid, stop⟩⟩), ⟨stop, none, false⟩)

/-- Reads on at `mid`, behind the plain run in `start..mid`, one character after another. -/
def readFrom? (start mid : Nat) : Option (Answer × Cursor) :=
  if mid < size source then
    match scan? source mid with
    | none => none
    | some (some (.ok (kind, stop))) => choose? start mid kind stop
    | some (some (.error e)) =>
      if start < mid then
        some (some (.ok ⟨.text, ⟨start, mid⟩⟩), ⟨mid, none, false⟩)
      else
        some (some (.error e), ⟨mid, none, true⟩)
    | some none =>
      match _h : width? source mid with
      | none => none
      | some width => readFrom? start (mid + width)
  else if start < mid then
    some (some (.ok ⟨.text, ⟨start, mid⟩⟩), ⟨mid, none, false⟩)
  else
    some (none, ⟨mid, none, false⟩)
termination_by size source - mid
decreasing_by
  have hpos := width?_pos source _h
  omega

def next? (c : Cursor) : Option (Answer × Cursor) :=
  match c.pending with
  | some t => some (some (.ok t), { c with pending := none })
  | none => if c.failed then some (none, c) else readFrom? source c.position c.position

def requests? : Nat → Option (List Answer × Cursor)
  | 0 => some ([], start)
  | n + 1 => do
    let (answers, c) ← requests? n
    let (a, c') ← c.next? source
    some (answers ++ [a], c')

/-! ### Every token brings the end nearer -/

/-- A bound on the number of tokens to come: two for each byte left, and the pending one. -/
def remaining (c : Cursor) : Nat :=
  match c.pending with
  | some _ => 2 * (size source - c.position) + 1
  | none => 2 * (size source - c.position)

variable {source}

theorem remaining_lt_of_choose? {start mid stop : Nat} {kind : TokenKind} {a : Answer} {c : Cursor}
    (hstart : start ≤ mid) (hmid : mid < size source) (h : choose? start mid kind stop = some (a, c)) :
    c.remaining source < 2 * (size source - start) := by
  unfold choose? at h
  split at h
  · exact absurd h (by simp)
  · split at h
    all_goals
      cases h
      simp only [remaining]
      omega

theorem remaining_lt_of_readFrom? {start mid : Nat} {t : Token} {c : Cursor} (hstart : start ≤ mid)
    (hmid : start = mid ∨ start < size source)
    (h : readFrom? source start mid = some (some (.ok t), c)) :
    c.remaining source < 2 * (size source - start) := by
  fun_induction readFrom? source start mid with
  | case1 mid hlt hscan => exact absurd h (by simp)
  | case2 mid hlt kind stop hscan => exact remaining_lt_of_choose? hstart hlt h
  | case3 mid hlt e hscan hrun =>
    cases h
    simp only [remaining]
    omega
  | case4 mid hlt e hscan hrun => exact absurd h (by simp)
  | case5 mid hlt hscan hwidth => exact absurd h (by simp)
  | case6 mid hlt hscan width hwidth ih => exact ih (by omega) (by omega) h
  | case7 mid hend hrun =>
    cases h
    simp only [remaining]
    omega
  | case8 mid hend hrun => exact absurd h (by simp)

theorem remaining_lt_of_next? {c c' : Cursor} {t : Token}
    (h : c.next? source = some (some (.ok t), c')) : c'.remaining source < c.remaining source := by
  unfold next? at h
  split at h
  · next t' hpending =>
    cases h
    simp [remaining, hpending]
  · next hpending =>
    split at h
    · exact absurd h (by simp)
    · have hlt := remaining_lt_of_readFrom? (Nat.le_refl _) (Or.inl rfl) h
      simpa only [remaining, hpending] using hlt

variable (source)

/-! ### Running through a source -/

/-- Runs `step?` over the tokens to come, from the value `a` on.  It stops at the first error, of the
source or of the step. -/
def fold? {α : Type} (step? : α → Token → Option (Except ParseError α)) (a : α) (c : Cursor) :
    Option (Except ParseError α) :=
  match _h : c.next? source with
  | none => none
  | some (none, _) => some (.ok a)
  | some (some (.error e), _) => some (.error e)
  | some (some (.ok t), c') =>
    match step? a t with
    | none => none
    | some (.error e) => some (.error e)
    | some (.ok a') => fold? step? a' c'
termination_by c.remaining source
decreasing_by exact remaining_lt_of_next? _h

def tokenize? : Option (Except ParseError (List Token)) :=
  (fold? source (fun ts t => some (.ok (t :: ts))) [] start).map (Except.map List.reverse)

/-- A builder takes one token: the leaf that the source has there, or a delimiter. -/
def add? {φ : Type} (b : Builder φ) (t : Token) : Option (Except ParseError (Builder φ)) := do
  match ← t.leaf? source with
  | some l => some (.ok (b.addLeaf l))
  | none =>
    match t.kind with
    | .opening d => some (b.openAt d t.span.start)
    | .closing d => some (b.closeAt d t.span.start)
    | _ => none

def parse? {φ : Type} : Option (Except ParseError (List (Node φ))) :=
  (fold? source (add? source) Builder.empty start).map fun
    | .ok b => b.finish (size source)
    | .error e => .error e

end Reading

end Cursor

end LosslessSql
