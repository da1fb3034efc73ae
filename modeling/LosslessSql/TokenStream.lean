import LosslessSql.Lexeme.Scan

/-!
# Lexemes one after another

A stream hands out the lexemes of a text one at a time and can be copied and resumed anywhere.  To
find the end of a plain run it reads the structured lexeme behind the run as well; that lexeme is
held back for the next request, and the position is then already past it.  A lexeme that cannot be
cut off is reported once, after the plain run before it; from then on the stream is silent.

* `TokenStream.next?`: the next lexeme or error; `none` at the end and after an error.
* `TokenStream.fold`: runs a step over the lexemes to come.
* `TokenStream.tokenize`: all lexemes to come.
* `remaining_lt_of_next?`: every lexeme handed out brings the end nearer.
-/

namespace LosslessSql

/-- What a stream does on the next request: it reads on, it hands out the lexeme that was read
behind a plain run, or it gives nothing any more, since it has reported an error. -/
inductive Phase where
  | reading
  | holding (p : Placed)
  | failed
deriving DecidableEq, Repr

/-- The lexemes of a text that are still to come.  The text has been read up to the byte offset
`position`, and `rest` follows it. -/
structure TokenStream where
  position : Nat
  rest : List Char
  phase : Phase
deriving DecidableEq, Repr

namespace TokenStream

def ofText (source : String) : TokenStream :=
  ⟨0, source.toList, .reading⟩

/-- The byte offset of the end of the text. -/
def size (t : TokenStream) : Nat :=
  t.position + byteSize t.rest

/-- Reads on: a plain run if there is one, otherwise the structured lexeme or fault at the
position. -/
def read? (t : TokenStream) : Option (Except ParseError Placed × TokenStream) :=
  match splitPlain t.rest with
  | ([], rest) =>
    match structured? rest with
    | none => none
    | some (.error fault) =>
      some (.error (fault.locate t.position t.size), { t with phase := .failed })
    | some (.ok cut) =>
      some (.ok ⟨cut.lexeme, t.position⟩, ⟨t.position + cut.lexeme.size, cut.rest, .reading⟩)
  | (c :: plain, rest) =>
    let text : Placed := ⟨.leaf (.text (String.ofList (c :: plain))), t.position⟩
    match structured? rest with
    | some (.ok cut) =>
      let next : Placed := ⟨cut.lexeme, text.stop⟩
      some (.ok text, ⟨next.stop, cut.rest, .holding next⟩)
    | _ => some (.ok text, ⟨text.stop, rest, .reading⟩)

def next? (t : TokenStream) : Option (Except ParseError Placed × TokenStream) :=
  match t.phase with
  | .holding p => some (.ok p, { t with phase := .reading })
  | .failed => none
  | .reading => t.read?

/-! ### Every lexeme brings the end nearer -/

/-- A bound on the number of lexemes to come: two for each character left, and the one held back. -/
def remaining (t : TokenStream) : Nat :=
  match t.phase with
  | .holding _ => 2 * t.rest.length + 1
  | _ => 2 * t.rest.length

theorem remaining_lt_of_read? {t t' : TokenStream} {p : Placed}
    (h : t.read? = some (.ok p, t')) : t'.remaining < 2 * t.rest.length := by
  have hlen := splitPlain_length t.rest
  unfold read? at h
  split at h
  · next rest hsplit =>
    rw [hsplit] at hlen
    split at h
    · exact absurd h (by simp)
    · exact absurd h (by simp)
    · next cut hcut =>
      obtain ⟨_, rfl⟩ := Prod.mk.inj (Option.some.inj h)
      have hlt := rest_length_lt hcut
      simp only [remaining, List.length_nil] at hlen ⊢
      omega
  · next c plain rest hsplit =>
    rw [hsplit] at hlen
    simp only [List.length_cons] at hlen
    split at h
    · next cut hcut =>
      obtain ⟨_, rfl⟩ := Prod.mk.inj (Option.some.inj h)
      have hlt := rest_length_lt hcut
      simp only [remaining]
      omega
    · obtain ⟨_, rfl⟩ := Prod.mk.inj (Option.some.inj h)
      simp only [remaining]
      omega

theorem remaining_lt_of_next? {t t' : TokenStream} {p : Placed}
    (h : t.next? = some (.ok p, t')) : t'.remaining < t.remaining := by
  unfold next? at h
  split at h
  · next q hphase =>
    obtain ⟨_, rfl⟩ := Prod.mk.inj (Option.some.inj h)
    simp [remaining, hphase]
  · exact absurd h (by simp)
  · next hphase =>
    have hlt := remaining_lt_of_read? h
    simp only [remaining, hphase]
    exact hlt

/-! ### Running through a stream -/

/-- Runs `step` over the lexemes to come, from the value `a` on.  It stops at the first error, of the
stream or of the step, and gives back where the stream stands then. -/
def fold {α : Type} (step : α → Placed → Except ParseError α) (a : α) (t : TokenStream) :
    Except ParseError α × TokenStream :=
  match _h : t.next? with
  | none => (.ok a, t)
  | some (.error e, t') => (.error e, t')
  | some (.ok p, t') =>
    match step a p with
    | .error e => (.error e, t')
    | .ok a' => fold step a' t'
termination_by t.remaining
decreasing_by exact remaining_lt_of_next? _h

def tokenize (t : TokenStream) : Except ParseError (List Placed) × TokenStream :=
  let (found, t') := t.fold (fun placed p => .ok (p :: placed)) []
  (found.map List.reverse, t')

end TokenStream

def tokenize (source : String) : Except ParseError (List Placed) :=
  (TokenStream.ofText source).tokenize.1

end LosslessSql
