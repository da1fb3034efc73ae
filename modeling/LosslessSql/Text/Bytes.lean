/-!
# Texts measured in bytes

Positions in a source are counted in the bytes of its UTF-8 form, while texts are lists of
characters.  `byteSize` measures a text, and `splitAtByte?` cuts one at a byte offset.

* `byteSize_append`: sizes add up along a concatenation.
* `splitAtByte?_eq_some_iff`: a cut exists exactly where a character begins or the text ends, and
  it loses nothing.
-/

namespace LosslessSql

def byteSize : List Char → Nat
  | [] => 0
  | c :: cs => c.utf8Size + byteSize cs

/-- Cuts a text at a byte offset.  There is no cut beyond the end or inside a character. -/
def splitAtByte? : Nat → List Char → Option (List Char × List Char)
  | 0, cs => some ([], cs)
  | _ + 1, [] => none
  | n + 1, c :: cs =>
    if c.utf8Size ≤ n + 1 then
      (splitAtByte? (n + 1 - c.utf8Size) cs).map fun (left, right) => (c :: left, right)
    else
      none

@[simp] theorem byteSize_nil : byteSize [] = 0 := rfl

@[simp] theorem byteSize_cons (c : Char) (cs : List Char) :
    byteSize (c :: cs) = c.utf8Size + byteSize cs := rfl

@[simp] theorem byteSize_append (as bs : List Char) :
    byteSize (as ++ bs) = byteSize as + byteSize bs := by
  induction as with
  | nil => simp
  | cons c cs ih => simp [ih, Nat.add_assoc]

theorem byteSize_eq_zero_iff {cs : List Char} : byteSize cs = 0 ↔ cs = [] := by
  cases cs with
  | nil => simp
  | cons c cs => have := c.utf8Size_pos; simp; omega

/-- The two parts of a cut make up the text, and the first is as long as asked. -/
theorem append_of_splitAtByte? {n : Nat} {cs left right : List Char}
    (h : splitAtByte? n cs = some (left, right)) : left ++ right = cs ∧ byteSize left = n := by
  fun_induction splitAtByte? n cs generalizing left right with
  | case1 cs => simp at h; simp [h]
  | case2 => simp at h
  | case3 n c cs hc ih =>
    obtain ⟨⟨l, r⟩, hs, he⟩ := Option.map_eq_some_iff.1 h
    obtain ⟨rfl, rfl⟩ := Prod.mk.inj he
    obtain ⟨rfl, hl⟩ := ih hs
    simp [hl]; omega
  | case4 => simp at h

/-- Every split of a text is the cut at the size of its first part. -/
theorem splitAtByte?_append (left right : List Char) :
    splitAtByte? (byteSize left) (left ++ right) = some (left, right) := by
  induction left with
  | nil => simp [splitAtByte?]
  | cons c cs ih =>
    have hc := c.utf8Size_pos
    obtain ⟨n, hn⟩ : ∃ n, c.utf8Size + byteSize cs = n + 1 :=
      ⟨c.utf8Size + byteSize cs - 1, by omega⟩
    have hle : c.utf8Size ≤ n + 1 := by omega
    have hsub : n + 1 - c.utf8Size = byteSize cs := by omega
    simp [hn, splitAtByte?, hle, hsub, ih]

theorem splitAtByte?_eq_some_iff {n : Nat} {cs left right : List Char} :
    splitAtByte? n cs = some (left, right) ↔ left ++ right = cs ∧ byteSize left = n := by
  constructor
  · exact append_of_splitAtByte?
  · rintro ⟨rfl, rfl⟩
    exact splitAtByte?_append left right

end LosslessSql
