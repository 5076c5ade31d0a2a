import ProcLang.Proofs.Grammar.Unplaced
import ProcLang.Proofs.Token.Segmentation

/-!
# Layout

Tokens can be written out with any white space and comments between them. A separator
starts with white space, so that it neither continues the token before it nor makes a
comment of a slash. The text has these tokens and no others, and how it is read does not
depend on the separators (`tokensOf_joined`).
-/

set_option autoImplicit false

namespace ProcLang

/-- White space and comments. Every comment has a newline at its end. -/
inductive Filler : List Char → Prop
  | nil : Filler []
  | space {c : Char} {rest : List Char} (white : WhiteSpace.isWhiteSpace c) (later : Filler rest) :
      Filler (c :: rest)
  | comment {body rest : List Char} (line : '\n' ∉ body) (later : Filler rest) :
      Filler ('/' :: '/' :: (body ++ '\n' :: rest))

/-- A white-space character, and then white space and comments. -/
def IsSeparator (gap : List Char) : Prop :=
  ∃ c rest, gap = c :: rest ∧ WhiteSpace.isWhiteSpace c ∧ Filler rest

/-- The written forms of tokens, with a separator between each token and the next. -/
def joined (separator : Nat → List Char) : List TokenKind → List Char
  | [] => []
  | [kind] => kind.text.toList
  | kind :: next :: rest =>
      kind.text.toList ++
        (separator 0 ++ joined (fun index => separator (index + 1)) (next :: rest))

theorem Filler.isTrivia {gap : List Char} (filler : Filler gap) : IsTrivia gap := by
  induction filler with
  | nil => exact isTrivia_nil
  | space white _ ih => exact ih.cons white
  | @comment body gap line _ ih =>
      intro rest
      have newline : IsTrivia ('\n' :: gap) := ih.cons WhiteSpace.isWhiteSpace_newline
      have stops : ∀ c ∈ ('\n' :: gap ++ rest).head?, c = '\n' := by simp
      rw [List.cons_append, List.cons_append, List.append_assoc, splitTrivia,
        splitTrivia_comment line stops, newline rest]
      simp

theorem IsSeparator.isTrivia {gap : List Char} (separates : IsSeparator gap) : IsTrivia gap := by
  obtain ⟨c, rest, rfl, white, filler⟩ := separates
  exact filler.isTrivia.cons white

theorem IsSeparator.parted {gap : List Char} (separates : IsSeparator gap) (rest : List Char) :
    Parted (gap ++ rest) := by
  obtain ⟨c, more, rfl, white, -⟩ := separates
  rintro _ ⟨⟩
  exact white

/-- Separators keep written tokens apart. -/
theorem spaced_joined {kinds : List TokenKind} {separator : Nat → List Char}
    (writable : ∀ kind ∈ kinds, kind.isWritable)
    (separates : ∀ index, IsSeparator (separator index)) :
    Spaced kinds (joined separator kinds) := by
  fun_induction joined separator kinds with
  | case1 separator => exact .nil
  | case2 separator kind =>
      have parted : Parted ([] ++ []) := by simp [Parted]
      simpa using Spaced.cons (writable kind List.mem_cons_self) isTrivia_nil parted .nil
  | case3 separator kind next rest ih =>
      have later := ih (fun other member => writable other (.tail _ member))
        fun index => separates (index + 1)
      exact .cons (writable kind List.mem_cons_self) (separates 0).isTrivia
        ((separates 0).parted _) later

/-- A text of written tokens has these tokens and the end. -/
theorem exists_tokensOf_joined {kinds : List TokenKind} {separator : Nat → List Char}
    (writable : ∀ kind ∈ kinds, kind.isWritable)
    (separates : ∀ index, IsSeparator (separator index)) :
    ∃ tokens, tokensOf (String.ofList (joined separator kinds)) = .ok tokens ∧
      tokens.map Token.kind = kinds ++ [.endOfFile] := by
  obtain ⟨used, span, scanned, spelled⟩ := tokensOf_spaced (spaced_joined writable separates)
  refine ⟨_, scanned, ?_⟩
  rw [List.map_append, spelled]
  rfl

/-- **Scanning undoes writing, whatever the layout.** Tokens that are written out with any
separators between them are scanned as they are, and the end comes after them. So the tree
or the fault, but for its place, is the same for all separators, and it is that of every
text with these tokens. -/
theorem tokensOf_joined {kinds : List TokenKind} (writable : ∀ kind ∈ kinds, kind.isWritable) :
    (∀ separator, (∀ index, IsSeparator (separator index)) →
      ∃ tokens, tokensOf (String.ofList (joined separator kinds)) = .ok tokens ∧
        tokens.map Token.kind = kinds ++ [.endOfFile]) ∧
    (∀ separator separator', (∀ index, IsSeparator (separator index)) →
      (∀ index, IsSeparator (separator' index)) →
      parseUnplaced (String.ofList (joined separator kinds)) =
        parseUnplaced (String.ofList (joined separator' kinds))) ∧
    ∀ separator source tokens, (∀ index, IsSeparator (separator index)) →
      tokensOf source = .ok tokens → tokens.map Token.kind = kinds ++ [.endOfFile] →
      parseUnplaced source = parseUnplaced (String.ofList (joined separator kinds)) := by
  refine ⟨fun separator => exists_tokensOf_joined writable, ?_, ?_⟩
  · intro separator separator' separates separates'
    obtain ⟨tokens, scanned, spelled⟩ := exists_tokensOf_joined writable separates
    obtain ⟨tokens', scanned', spelled'⟩ := exists_tokensOf_joined writable separates'
    exact parseUnplaced_eq_of_kinds scanned scanned' (spelled.trans spelled'.symm)
  · intro separator source tokens separates scanned spelled
    obtain ⟨tokens', scanned', spelled'⟩ := exists_tokensOf_joined writable separates
    exact parseUnplaced_eq_of_kinds scanned scanned' (spelled.trans spelled'.symm)

/-- Words, numbers and slashes, of which two stand side by side. -/
def slashes : List TokenKind :=
  [.keyword .kwVar, .identifier "vars", .symbol .slash, .integer 2, .symbol .slash, .symbol .slash,
    .integer 0]

/-- A wide space and two comments, the first of them empty. -/
def remarks (_ : Nat) : List Char :=
  "\u3000//\n//*/ x\n".toList

/-- Slashes next to comments stay slashes, and the text is read as it is on one line. -/
theorem tokensOf_joined_slashes :
    (∃ tokens, tokensOf (String.ofList (joined remarks slashes)) = .ok tokens ∧
      tokens.map Token.kind = slashes ++ [.endOfFile]) ∧
    parseUnplaced (String.ofList (joined remarks slashes)) =
      parseUnplaced "var vars / 2 / / 0" := by
  have writable : ∀ kind ∈ slashes, kind.isWritable := by decide +kernel
  have separates : ∀ index, IsSeparator (remarks index) := fun _ =>
    ⟨'\u3000', _, rfl, by decide, @Filler.comment [] _ (by decide)
      (@Filler.comment "*/ x".toList [] (by decide) .nil)⟩
  have spaces : ∀ index : Nat, IsSeparator ((fun _ => [' ']) index) := fun _ =>
    ⟨' ', [], rfl, by decide, .nil⟩
  have line : String.ofList (joined (fun _ => [' ']) slashes) = "var vars / 2 / / 0" := by cbv
  obtain ⟨scanned, alike, -⟩ := tokensOf_joined writable
  rw [← line]
  exact ⟨scanned remarks separates, alike remarks _ separates spaces⟩

end ProcLang
