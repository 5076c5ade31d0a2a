import ProcLang.Event
import ProcLang.Grammar.Fault

/-!
# Readings

A reading is what one rule of the grammar makes of a list of tokens: a value or
a fault, the tokens that are left, and the events on the way. The tokens left
are a suffix of those it started with, also after a fault, and a rule that
succeeds has taken at least as many tokens as its index says. The index is what
makes repetition end: a rule that takes at least one token can be repeated.

Readings are put together by `bind`, which hands the tokens left by the first
rule to the second, with the proof that they are fewer. Faults refer to the end
of the tokens by one location, which is fixed before reading starts.
-/

set_option autoImplicit false

namespace ProcLang

/-- The result of a rule that takes at least `least` of `tokens` if it succeeds. -/
structure Reading (least : Nat) (tokens : List Token) (α : Type) where
  outcome : Except SyntaxFault α
  rest : List Token
  events : List Event
  suffix : rest <:+ tokens
  taken : ∀ value, outcome = .ok value → rest.length + least ≤ tokens.length

namespace Reading

variable {α β : Type} {least more : Nat} {tokens : List Token}

/-- Read nothing. -/
def pure (value : α) : Reading 0 tokens α :=
  ⟨.ok value, tokens, [], List.suffix_refl tokens, fun _ _ => Nat.le_refl _⟩

/-- Fail without taking a token. -/
def fail (fault : SyntaxFault) : Reading least tokens α :=
  ⟨.error fault, tokens, [], List.suffix_refl tokens, nofun⟩

/-- Fail after taking the first token. -/
def failAfter (token : Token) (fault : SyntaxFault) : Reading least (token :: tokens) α :=
  ⟨.error fault, tokens, [], List.suffix_cons token tokens, nofun⟩

/-- Take the first token. -/
def take (token : Token) (value : α) : Reading 1 (token :: tokens) α :=
  ⟨.ok value, tokens, [], List.suffix_cons token tokens, fun _ _ => Nat.le_refl _⟩

/-- Take no token; the value has been checked. -/
def check : Except SyntaxFault α → Reading 0 tokens α
  | .ok value => pure value
  | .error fault => fail fault

/-- Read nothing and report what happened. -/
def report (event : Event) (value : α) : Reading 0 tokens α :=
  ⟨.ok value, tokens, [event], List.suffix_refl tokens, fun _ _ => Nat.le_refl _⟩

/-- Apply a function to the value read. -/
def map (f : α → β) (reading : Reading least tokens α) : Reading least tokens β where
  outcome :=
    match reading.outcome with
    | .ok value => .ok (f value)
    | .error fault => .error fault
  rest := reading.rest
  events := reading.events
  suffix := reading.suffix
  taken := by
    intro value success
    cases done : reading.outcome with
    | ok value => exact reading.taken value done
    | error fault => simp [done] at success

/-- Continue with the tokens left by a first reading. -/
def bind (first : Reading least tokens α)
    (second : (value : α) → (rest : List Token) → rest.length + least ≤ tokens.length →
      Reading more rest β) : Reading (least + more) tokens β :=
  match done : first.outcome with
  | .error fault => ⟨.error fault, first.rest, first.events, first.suffix, nofun⟩
  | .ok value =>
      let final := second value first.rest (first.taken value done)
      { outcome := final.outcome
        rest := final.rest
        events := first.events ++ final.events
        suffix := final.suffix.trans first.suffix
        taken := by
          intro result success
          have before := first.taken value done
          have after := final.taken result success
          omega }

/-- Take the first token and continue with the others. -/
def after (token : Token) (reading : Reading least tokens α) :
    Reading (least + 1) (token :: tokens) α where
  outcome := reading.outcome
  rest := reading.rest
  events := reading.events
  suffix := reading.suffix.trans (List.suffix_cons token tokens)
  taken := by
    intro value success
    have := reading.taken value success
    simp only [List.length_cons]
    omega

/-- Promise less than was taken. Both numbers are known where a rule is written, so
they are compared by evaluation. -/
def weaken (fewer : Nat) (reading : Reading least tokens α)
    (le : Nat.ble fewer least = true := by exact Eq.refl true) : Reading fewer tokens α :=
  { reading with
    taken := by
      intro value success
      have := reading.taken value success
      have := Nat.le_of_ble_eq_true le
      omega }

/-! ## What the combinations do -/

theorem bind_of_error {first : Reading least tokens α}
    {second : (value : α) → (rest : List Token) → rest.length + least ≤ tokens.length →
      Reading more rest β} {fault : SyntaxFault}
    (failed : first.outcome = .error fault) :
    (first.bind second).outcome = .error fault ∧
      (first.bind second).rest = first.rest ∧
      (first.bind second).events = first.events := by
  unfold bind
  split
  next fault' done => simp_all
  next value done => simp [failed] at done

theorem bind_of_ok {first : Reading least tokens α}
    {second : (value : α) → (rest : List Token) → rest.length + least ≤ tokens.length →
      Reading more rest β} {value : α}
    (done : first.outcome = .ok value) :
    (first.bind second).outcome =
        (second value first.rest (first.taken value done)).outcome ∧
      (first.bind second).rest =
        (second value first.rest (first.taken value done)).rest ∧
      (first.bind second).events =
        first.events ++ (second value first.rest (first.taken value done)).events := by
  unfold bind
  split
  next fault failed => simp [done] at failed
  next value' same =>
    obtain rfl : value = value' := by simpa [done] using same
    exact ⟨rfl, rfl, rfl⟩

end Reading

namespace Grammar

/-! ## Single tokens -/

/-- Where the next token stands, or the end of the tokens. -/
def nextLocation (finish : Location) : List Token → Location
  | [] => finish
  | token :: _ => token.span.start

/-- The fault of a first token that starts nothing; no token is taken. -/
def unexpected (finish : Location) (expected : Expectation) : List Token → SyntaxFault
  | [] => .unexpectedEnd expected finish
  | token :: _ =>
      if token.kind = .endOfFile then .unexpectedEnd expected finish
      else .unexpectedToken expected token

/-- Take one token that `accept` has a value for. A token that is not accepted
is taken too. -/
def expectWith {α : Type} (finish : Location) (expected : Expectation)
    (accept : TokenKind → Option α) : (tokens : List Token) → Reading 1 tokens α
  | [] => .fail (.unexpectedEnd expected finish)
  | token :: _ =>
      if token.kind = .endOfFile then
        .failAfter token (.unexpectedEnd expected finish)
      else
        match accept token.kind with
        | some value => .take token value
        | none => .failAfter token (.unexpectedToken expected token)

/-- Take a token of one kind. -/
def expect (finish : Location) (kind : TokenKind) (construct : Construct) (tokens : List Token) :
    Reading 1 tokens Unit :=
  expectWith finish (.token kind construct)
    (fun found => if found = kind then some () else none) tokens

/-- Take an identifier. -/
def expectIdentifier (finish : Location) (construct : Construct) (tokens : List Token) :
    Reading 1 tokens String :=
  expectWith finish (.identifier construct)
    (fun found => match found with
      | .identifier name => some name
      | _ => none) tokens

/-- Take an integer. -/
def expectInteger (finish : Location) (construct : Construct) (tokens : List Token) :
    Reading 1 tokens Int32 :=
  expectWith finish (.integer construct)
    (fun found => match found with
      | .integer value => some value
      | _ => none) tokens

/-- Take a token of one kind if it comes next. -/
def skip (kind : TokenKind) : (tokens : List Token) → Reading 0 tokens Unit
  | [] => .pure ()
  | token :: _ => if token.kind = kind then .weaken 0 (.take token ()) else .pure ()

end Grammar

end ProcLang
