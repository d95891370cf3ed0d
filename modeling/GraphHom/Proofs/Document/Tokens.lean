import GraphHom.Document.Token

/-!
# The tokens of a text

`Tokenizes` says what the tokens of a text are, without saying how they are found: blanks and comments
are dropped, a comment ends just before a line feed or with the text, and a word ends where no
character of a word follows. Every text has exactly one sequence of tokens, the one that `lexemes`
lists (`tokenizes_iff`), wherever the text starts (`map_token_lexemes`).

The equations of `tokens`, one for each kind of first character, are what readings of single
characters are compared with.
-/

namespace GraphHom

/-- The text consists of these tokens, apart from blanks and comments. -/
inductive Tokenizes : List Char → List Token → Prop
  /-- The empty text has no tokens. -/
  | nil : Tokenizes [] []
  /-- A blank is dropped. -/
  | blank {c : Char} {cs : List Char} {ts : List Token} (hc : isBlank c) (h : Tokenizes cs ts) :
      Tokenizes (c :: cs) ts
  /-- A comment is dropped; it ends just before a line feed or with the text. -/
  | comment {body cs : List Char} {ts : List Token} (hbody : '\n' ∉ body)
      (hend : ∀ c ∈ cs.head?, c = '\n') (h : Tokenizes cs ts) : Tokenizes (';' :: (body ++ cs)) ts
  /-- An opening parenthesis. -/
  | opening {cs : List Char} {ts : List Token} (h : Tokenizes cs ts) :
      Tokenizes ('(' :: cs) (.opening :: ts)
  /-- A closing parenthesis. -/
  | closing {cs : List Char} {ts : List Token} (h : Tokenizes cs ts) :
      Tokenizes (')' :: cs) (.closing :: ts)
  /-- A word is as long as it can be. -/
  | word {w cs : List Char} {ts : List Token} (hne : w ≠ []) (hw : ∀ c ∈ w, isWordChar c)
      (hend : ∀ c ∈ cs.head?, ¬isWordChar c) (h : Tokenizes cs ts) :
      Tokenizes (w ++ cs) (.word w :: ts)

/-- The tokens of a text, in order. -/
def tokens (cs : List Char) : List Token := (lexemes Position.start cs).map Lexeme.token

variable {c : Char} {cs body w : List Char} {ts : List Token} {p q : Position}

/-! ## Kinds of characters -/

theorem isWordChar_iff :
    isWordChar c ↔ isBlank c = false ∧ c ≠ '(' ∧ c ≠ ')' ∧ c ≠ ';' := by
  simp [isWordChar, and_assoc]

/-- A character is a blank, a parenthesis, a semicolon or part of a word. -/
theorem char_cases (c : Char) :
    isBlank c ∨ c = '(' ∨ c = ')' ∨ c = ';' ∨ isWordChar c := by
  by_cases h : isBlank c ∨ c = '(' ∨ c = ')' ∨ c = ';'
  · rcases h with h | h | h | h <;> simp [h]
  · simp only [not_or, Bool.not_eq_true] at h
    exact .inr (.inr (.inr (.inr (isWordChar_iff.mpr h))))

/-! ## Lexemes, one at a time -/

theorem lexemes_nil : lexemes p [] = [] := by
  rw [lexemes]

theorem lexemes_blank (h : isBlank c) : lexemes p (c :: cs) = lexemes (p.next c) cs := by
  rw [lexemes, if_pos h]

theorem lexemes_opening :
    lexemes p ('(' :: cs) = ⟨.opening, p⟩ :: lexemes (p.next '(') cs := by
  rw [lexemes, if_neg (by decide), if_pos rfl]

theorem lexemes_closing :
    lexemes p (')' :: cs) = ⟨.closing, p⟩ :: lexemes (p.next ')') cs := by
  rw [lexemes, if_neg (by decide), if_neg (by decide), if_pos rfl]

theorem lexemes_comment : lexemes p (';' :: cs) =
    lexemes (p.advance (';' :: cs.takeWhile (· ≠ '\n'))) (cs.dropWhile (· ≠ '\n')) := by
  rw [lexemes, if_neg (by decide), if_neg (by decide), if_neg (by decide), if_pos rfl]

theorem lexemes_word (h : isWordChar c) : lexemes p (c :: cs) =
    ⟨.word (c :: cs.takeWhile isWordChar), p⟩ ::
      lexemes (p.advance (c :: cs.takeWhile isWordChar)) (cs.dropWhile isWordChar) := by
  obtain ⟨hblank, hopening, hclosing, hcomment⟩ := isWordChar_iff.mp h
  rw [lexemes, if_neg (by simp [hblank]), if_neg hopening, if_neg hclosing, if_neg hcomment]

/-- Induction along a text, from one lexeme to the next. -/
theorem text_induction {P : List Char → Prop} (nil : P [])
    (blank : ∀ c cs, isBlank c → P cs → P (c :: cs))
    (opening : ∀ cs, P cs → P ('(' :: cs)) (closing : ∀ cs, P cs → P (')' :: cs))
    (comment : ∀ cs, P (cs.dropWhile (· ≠ '\n')) → P (';' :: cs))
    (word : ∀ c cs, isWordChar c → P (cs.dropWhile isWordChar) → P (c :: cs)) :
    ∀ cs, P cs := by
  intro cs
  induction hn : cs.length using Nat.strongRecOn generalizing cs with
  | _ n ih =>
    cases cs with
    | nil => exact nil
    | cons c cs =>
      simp only [List.length_cons] at hn
      have hcs : P cs := ih cs.length (by omega) cs rfl
      have hdrop : ∀ f : Char → Bool, P (cs.dropWhile f) := by
        intro f
        have hlen := (List.dropWhile_suffix (l := cs) f).length_le
        exact ih _ (by omega) _ rfl
      rcases char_cases c with hc | rfl | rfl | rfl | hc
      · exact blank c cs hc hcs
      · exact opening cs hcs
      · exact closing cs hcs
      · exact comment cs (hdrop _)
      · exact word c cs hc (hdrop _)

/-- Which tokens there are does not depend on where the text starts. -/
theorem map_token_lexemes (p q : Position) (cs : List Char) :
    (lexemes p cs).map Lexeme.token = (lexemes q cs).map Lexeme.token := by
  induction cs using text_induction generalizing p q with
  | nil => rw [lexemes_nil, lexemes_nil]
  | blank c cs hc ih => rw [lexemes_blank hc, lexemes_blank hc, ih]
  | opening cs ih => rw [lexemes_opening, lexemes_opening, List.map_cons, List.map_cons, ih]
  | closing cs ih => rw [lexemes_closing, lexemes_closing, List.map_cons, List.map_cons, ih]
  | comment cs ih => rw [lexemes_comment, lexemes_comment, ih]
  | word c cs hc ih => rw [lexemes_word hc, lexemes_word hc, List.map_cons, List.map_cons, ih]

/-! ## Tokens, one at a time -/

@[simp] theorem tokens_nil : tokens [] = [] := by
  rw [tokens, lexemes_nil, List.map_nil]

theorem tokens_blank (h : isBlank c) : tokens (c :: cs) = tokens cs := by
  rw [tokens, lexemes_blank h]
  exact map_token_lexemes _ _ _

@[simp] theorem tokens_opening : tokens ('(' :: cs) = .opening :: tokens cs := by
  rw [tokens, lexemes_opening, List.map_cons]
  exact congrArg _ (map_token_lexemes _ _ _)

@[simp] theorem tokens_closing : tokens (')' :: cs) = .closing :: tokens cs := by
  rw [tokens, lexemes_closing, List.map_cons]
  exact congrArg _ (map_token_lexemes _ _ _)

theorem tokens_comment : tokens (';' :: cs) = tokens (cs.dropWhile (· ≠ '\n')) := by
  rw [tokens, lexemes_comment]
  exact map_token_lexemes _ _ _

theorem tokens_word (h : isWordChar c) : tokens (c :: cs) =
    .word (c :: cs.takeWhile isWordChar) :: tokens (cs.dropWhile isWordChar) := by
  rw [tokens, lexemes_word h, List.map_cons]
  exact congrArg _ (map_token_lexemes _ _ _)

/-- Characters of a word belong to the word that goes on after them. -/
theorem tokens_append (hne : w ≠ []) (hw : ∀ c ∈ w, isWordChar c) : tokens (w ++ cs) =
    .word (w ++ cs.takeWhile isWordChar) :: tokens (cs.dropWhile isWordChar) := by
  cases w with
  | nil => exact absurd rfl hne
  | cons c w =>
    have hw' : ∀ d ∈ w, isWordChar d := fun d hd => hw d (List.mem_cons_of_mem _ hd)
    rw [List.cons_append, tokens_word (hw c List.mem_cons_self),
      List.takeWhile_append_of_pos hw', List.dropWhile_append_of_pos hw', List.cons_append]

/-- A word ends where no character of a word follows. -/
theorem tokens_word_append (hne : w ≠ []) (hw : ∀ c ∈ w, isWordChar c)
    (hend : ∀ c ∈ cs.head?, ¬isWordChar c) : tokens (w ++ cs) = .word w :: tokens cs := by
  rw [tokens_append hne hw]
  cases cs with
  | nil => rw [List.takeWhile_nil, List.dropWhile_nil, List.append_nil]
  | cons c cs =>
    have hc : ¬isWordChar c := hend c rfl
    rw [List.takeWhile_cons_of_neg hc, List.dropWhile_cons_of_neg hc, List.append_nil]

/-! ## Every text has one sequence of tokens -/

theorem tokenizes_tokens (cs : List Char) : Tokenizes cs (tokens cs) := by
  induction cs using text_induction with
  | nil =>
    rw [tokens_nil]
    exact .nil
  | blank c cs hc ih =>
    rw [tokens_blank hc]
    exact .blank hc ih
  | opening cs ih =>
    rw [tokens_opening]
    exact .opening ih
  | closing cs ih =>
    rw [tokens_closing]
    exact .closing ih
  | comment cs ih =>
    have hbody : '\n' ∉ cs.takeWhile (· ≠ '\n') := by
      intro hmem
      simpa using List.all_eq_true.mp List.all_takeWhile '\n' hmem
    have hend : ∀ c ∈ (cs.dropWhile (· ≠ '\n')).head?, c = '\n' := by
      intro c hc
      have hstop := List.head?_dropWhile_not (· ≠ '\n') cs
      rw [Option.mem_def.mp hc] at hstop
      simpa using hstop
    have h := Tokenizes.comment hbody hend ih
    rw [List.takeWhile_append_dropWhile] at h
    rw [tokens_comment]
    exact h
  | word c cs hc ih =>
    have hw : ∀ d ∈ c :: cs.takeWhile isWordChar, isWordChar d := by
      intro d hd
      rcases List.mem_cons.mp hd with rfl | hd
      · exact hc
      · exact List.all_eq_true.mp List.all_takeWhile d hd
    have hend : ∀ d ∈ (cs.dropWhile isWordChar).head?, ¬isWordChar d := by
      intro d hd
      have hstop := List.head?_dropWhile_not isWordChar cs
      rw [Option.mem_def.mp hd] at hstop
      simpa using hstop
    have h := Tokenizes.word (List.cons_ne_nil _ _) hw hend ih
    rw [List.cons_append, List.takeWhile_append_dropWhile] at h
    rw [tokens_word hc]
    exact h

/-- **Every text has exactly one sequence of tokens.** -/
theorem tokenizes_iff : Tokenizes cs ts ↔ ts = tokens cs := by
  constructor
  · intro h
    induction h with
    | nil => rw [tokens_nil]
    | blank hc _ ih => rw [ih, tokens_blank hc]
    | @comment body cs ts hbody hend _ ih =>
      have hpos : ∀ c ∈ body, decide (c ≠ '\n') = true := by
        intro c hc
        exact decide_eq_true fun h => hbody (h ▸ hc)
      have hdrop : cs.dropWhile (· ≠ '\n') = cs := by
        cases cs with
        | nil => rfl
        | cons c cs =>
          refine List.dropWhile_cons_of_neg ?_
          simpa using hend c rfl
      rw [ih, tokens_comment, List.dropWhile_append_of_pos hpos, hdrop]
    | opening _ ih => rw [ih, tokens_opening]
    | closing _ ih => rw [ih, tokens_closing]
    | word hne hw hend _ ih => rw [ih, tokens_word_append hne hw hend]
  · rintro rfl
    exact tokenizes_tokens cs

end GraphHom
