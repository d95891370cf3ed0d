import GraphHom.Proofs.Document.Peg
import GraphHom.Proofs.Document.Tokens

/-!
# Skipping blanks and comments

Expressions for single characters take the characters of a kind (`Peg.Takes`), and a repetition of one
takes as many as follow each other. What is skipped between the items of a sequence is described from
there: skipping changes no tokens and stops where a token starts or where the text ends
(`Peg.skip_spec`).
-/

namespace GraphHom

namespace Peg

variable {total : Nat} {c d : Char} {cs : List Char} {e f : Peg} {p q : Char → Bool}

/-! ## Single characters -/

/-- Takes one character of a kind. -/
def taking (p : Char → Bool) : List Char → Option Match
  | [] => none
  | c :: cs => if p c then some (cs, []) else none

/-- Without skipping, the expression takes one character of a kind. -/
def Takes (e : Peg) (p : Char → Bool) : Prop := ∀ total cs, run total id e cs = taking p cs

theorem run_char {sk : List Char → List Char} :
    run total sk (char d) cs = taking (· = d) cs := by
  rw [char, run]
  cases cs with
  | nil => rfl
  | cons c cs =>
    by_cases h : c = d
    · simp [taking, List.isPrefixOf?, h]
    · simp [taking, List.isPrefixOf?, h, Ne.symm h]

theorem takes_char : Takes (char d) (· = d) := fun _ _ => run_char

theorem Takes.choice (he : Takes e p) (hf : Takes f q) :
    Takes (choice e f) fun c => p c || q c := by
  intro total cs
  rw [run, he, hf]
  cases cs with
  | nil => rfl
  | cons c cs => cases hp : p c <;> simp [taking, hp]

theorem Takes.absent_any (he : Takes e p) : Takes (seq (absent e) any) fun c => !p c := by
  intro total cs
  rw [run, run, he]
  cases cs with
  | nil => rfl
  | cons c cs => cases hp : p c <;> simp [taking, hp, run]

theorem Takes.congr (he : Takes e p) (h : ∀ c, p c = q c) : Takes e q := by
  rwa [← funext h]

/-- Without skipping, a repetition matches again and again. -/
theorem run_many_id : run total id (many e) cs = some (repeated (run total id e) cs) := by
  rw [run, repeated]
  rcases run total id e cs with _ | ⟨cs', ts⟩
  · rfl
  · simp only [id_eq]
    split <;> rfl

theorem repeated_taking : repeated (taking p) cs = (cs.dropWhile p, []) := by
  induction cs with
  | nil =>
    rw [repeated]
    rfl
  | cons c cs ih =>
    rw [repeated]
    cases hp : p c with
    | true => simp [taking, hp, ih]
    | false => simp [taking, hp]

/-- A repetition takes all characters of a kind that follow each other. -/
theorem Takes.many (he : Takes e p) : run total id (many e) cs = some (cs.dropWhile p, []) := by
  rw [run_many_id, funext (he total), repeated_taking]

theorem takes_whitespace : Takes whitespace isBlank := by
  refine (takes_char.choice (takes_char.choice (takes_char.choice
    takes_char))).congr fun c => ?_
  simp only [isBlank, Bool.or_assoc]

theorem takes_nameChar : Takes nameChar isWordChar := by
  refine (takes_char.choice (takes_char.choice (takes_char.choice
    (takes_char.choice (takes_char.choice (takes_char.choice
      takes_char)))))).absent_any.congr fun c => ?_
  simp only [isWordChar, isBlank]
  simp [Bool.and_assoc]

/-! ## What is skipped -/

/-- A comment goes up to a line feed. -/
theorem run_comment : run total id comment cs =
    (taking (· = ';') cs).map fun x => (x.1.dropWhile (· ≠ '\n'), []) := by
  have hmany : ∀ cs, run total id (many (seq (absent (char '\n')) any)) cs =
      some (cs.dropWhile (· ≠ '\n'), []) := by
    intro cs
    exact (takes_char.absent_any.congr fun c => by simp).many
  rw [comment, run, takes_char]
  cases cs with
  | nil => rfl
  | cons c cs => by_cases h : c = ';' <;> simp [taking, h, hmany]

/-- One comment with the blanks after it. -/
def pastComment (cs : List Char) : Option Match :=
  (taking (· = ';') cs).map fun x => ((x.1.dropWhile (· ≠ '\n')).dropWhile isBlank, [])

theorem skip_eq : skip cs = (repeated pastComment (cs.dropWhile isBlank)).1 := by
  have hcomment : run cs.length id (seq comment (many whitespace)) = pastComment := by
    funext ds
    rw [run, run_comment, pastComment]
    cases taking (· = ';') ds with
    | none => rfl
    | some x => simp [takes_whitespace.many]
  rw [skip, ignored, run, takes_whitespace.many]
  simp [run_many_id, hcomment]

/-- The text starts with a token, or is empty. -/
def Tight (cs : List Char) : Prop := ∀ c ∈ cs.head?, isBlank c = false ∧ c ≠ ';'

theorem skip_blank (h : isBlank c) : skip (c :: cs) = skip cs := by
  rw [skip_eq, skip_eq, List.dropWhile_cons_of_pos h]

theorem skip_comment : skip (';' :: cs) = skip (cs.dropWhile (· ≠ '\n')) := by
  have hlen : ((cs.dropWhile (· ≠ '\n')).dropWhile isBlank).length < (';' :: cs).length := by
    have h₁ := (List.dropWhile_suffix (l := cs) (· ≠ '\n')).length_le
    have h₂ := (List.dropWhile_suffix (l := cs.dropWhile (· ≠ '\n')) isBlank).length_le
    rw [List.length_cons]
    omega
  have hpast : pastComment (';' :: cs) =
      some ((cs.dropWhile (· ≠ '\n')).dropWhile isBlank, []) := by
    simp [pastComment, taking]
  rw [skip_eq, skip_eq, List.dropWhile_cons_of_neg (by decide), repeated, hpast]
  simp only [if_pos hlen]

theorem skip_of_tight (h : Tight cs) : skip cs = cs := by
  have hblank : cs.dropWhile isBlank = cs := by
    cases cs with
    | nil => rfl
    | cons c cs => exact List.dropWhile_cons_of_neg (by simp [(h c rfl).1])
  have hpast : pastComment cs = none := by
    cases cs with
    | nil => rfl
    | cons c cs => simp [pastComment, taking, (h c rfl).2]
  rw [skip_eq, hblank, repeated, hpast]

theorem tight_nil : Tight [] := by simp [Tight]

theorem tight_opening : Tight ('(' :: cs) := by simp [Tight, isBlank]

theorem tight_closing : Tight (')' :: cs) := by simp [Tight, isBlank]

theorem tight_word (h : isWordChar c) : Tight (c :: cs) := by
  obtain ⟨hblank, -, -, hcomment⟩ := isWordChar_iff.mp h
  simp [Tight, hblank, hcomment]

/-- Skipping changes no tokens and stops where a token starts; it only shortens the text. -/
theorem skip_spec (cs : List Char) :
    tokens (skip cs) = tokens cs ∧ Tight (skip cs) ∧ skip cs <:+ cs := by
  have htight : ∀ {cs}, Tight cs → tokens (skip cs) = tokens cs ∧ Tight (skip cs) ∧ skip cs <:+ cs := by
    intro cs h
    rw [skip_of_tight h]
    exact ⟨rfl, h, List.suffix_rfl⟩
  induction cs using text_induction with
  | nil => exact htight tight_nil
  | blank c cs hc ih =>
    rw [skip_blank hc, tokens_blank hc]
    exact ⟨ih.1, ih.2.1, ih.2.2.trans (List.suffix_cons c cs)⟩
  | opening cs _ => exact htight tight_opening
  | closing cs _ => exact htight tight_closing
  | comment cs ih =>
    rw [skip_comment, tokens_comment]
    exact ⟨ih.1, ih.2.1, ih.2.2.trans ((List.dropWhile_suffix _).trans (List.suffix_cons ';' cs))⟩
  | word c cs hc _ => exact htight (tight_word hc)

@[simp] theorem tokens_skip : tokens (skip cs) = tokens cs := (skip_spec cs).1

theorem tight_skip : Tight (skip cs) := (skip_spec cs).2.1

theorem skip_suffix : skip cs <:+ cs := (skip_spec cs).2.2

end Peg

end GraphHom
