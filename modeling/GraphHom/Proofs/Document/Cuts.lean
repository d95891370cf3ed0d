import GraphHom.Proofs.Document.Agreement
import Mathlib.Data.List.TakeWhile

/-!
# Texts cut in two

A text may be cut in two so that its tokens are those of the two parts: where a token starts
(`exists_front`), and at every line feed (`tokens_append_newline`). `fromToken n` is what is left of a text
from its token number `n` on. A part that separates from what follows (`Separates`) is complete whatever
follows, unless that goes on with a word of it; it does so as soon as no token is lost where the two meet
(`separates_of_length_le`).
-/

namespace GraphHom

open Peg (Tight skip tight_skip tokens_skip skip_suffix skip_of_tight skip_blank skip_comment)

variable {c : Char} {cs ds front rest text w x : List Char} {n : Nat}

/-! ## Texts cut in two -/

/-- The text starts with a character of a word. -/
def StartsWord (cs : List Char) : Prop := ∃ c ds, cs = c :: ds ∧ isWordChar c

theorem not_startsWord_nil : ¬StartsWord [] := by simp [StartsWord]

theorem startsWord_cons : StartsWord (c :: cs) ↔ isWordChar c := by simp [StartsWord]

theorem startsWord_append (h : w ≠ []) : StartsWord (w ++ x) ↔ StartsWord w := by
  obtain ⟨c, w, rfl⟩ := List.exists_cons_of_ne_nil h
  rw [List.cons_append, startsWord_cons, startsWord_cons]

theorem StartsWord.append (h : StartsWord cs) : StartsWord (cs ++ ds) := by
  obtain ⟨c, cs, rfl, hc⟩ := h
  exact ⟨c, cs ++ ds, rfl, hc⟩

theorem takeWhile_of_not_startsWord (h : ¬StartsWord cs) : cs.takeWhile isWordChar = [] := by
  cases cs with
  | nil => rfl
  | cons c cs => exact List.takeWhile_cons_of_neg fun hc => h (startsWord_cons.mpr hc)

theorem dropWhile_of_not_startsWord (h : ¬StartsWord cs) : cs.dropWhile isWordChar = cs := by
  cases cs with
  | nil => rfl
  | cons c cs => exact List.dropWhile_cons_of_neg fun hc => h (startsWord_cons.mpr hc)

theorem not_startsWord_dropWhile : ¬StartsWord (cs.dropWhile isWordChar) := by
  rintro ⟨c, ds, hcs, hc⟩
  have hstop := List.head?_dropWhile_not isWordChar cs
  rw [hcs] at hstop
  simp [hc] at hstop

theorem Position.advance_append (p : Position) : p.advance (cs ++ ds) = (p.advance cs).advance ds :=
  List.foldl_append

/-- The lexemes of `front` are complete before `rest`, and before anything else that goes on with a word
only if `rest` does. -/
def Separates (front rest : List Char) : Prop :=
  ∀ p x, (StartsWord x → StartsWord rest) →
    lexemes p (front ++ x) = lexemes p front ++ lexemes (p.advance front) x

theorem Separates.trans (h : Separates front (cs ++ rest)) (h' : Separates cs rest) :
    Separates (front ++ cs) rest := by
  intro p x hx
  have hword : StartsWord (cs ++ x) → StartsWord (cs ++ rest) := by
    by_cases hcs : cs = []
    · subst hcs
      exact hx
    · rw [startsWord_append hcs, startsWord_append hcs]
      exact id
  rw [List.append_assoc, h p _ hword, h' _ _ hx, h p _ StartsWord.append, List.append_assoc,
    Position.advance_append]

theorem Separates.tokens_append (h : Separates front rest) (hx : StartsWord x → StartsWord rest) :
    tokens (front ++ x) = tokens front ++ tokens x := by
  rw [tokens, h _ _ hx, List.map_append, tokens, map_token_lexemes (Position.start.advance front)]
  rfl

/-- What is skipped adds no lexemes, whatever follows. -/
theorem exists_skipped (h : skip cs ≠ []) :
    ∃ skipped, cs = skipped ++ skip cs ∧
      ∀ p x, lexemes p (skipped ++ x) = lexemes (p.advance skipped) x := by
  have htight : ∀ {cs}, Tight cs → ∃ skipped, cs = skipped ++ skip cs ∧
      ∀ p x, lexemes p (skipped ++ x) = lexemes (p.advance skipped) x := by
    intro cs hcs
    exact ⟨[], (skip_of_tight hcs).symm, fun _ _ => rfl⟩
  induction cs using text_induction with
  | nil => exact htight Peg.tight_nil
  | opening cs _ => exact htight Peg.tight_opening
  | closing cs _ => exact htight Peg.tight_closing
  | word c cs hc _ => exact htight (Peg.tight_word hc)
  | blank c cs hc ih =>
    rw [skip_blank hc] at h ⊢
    obtain ⟨skipped, hcs, hlexemes⟩ := ih h
    refine ⟨c :: skipped, congrArg (c :: ·) hcs, fun p x => ?_⟩
    rw [List.cons_append, lexemes_blank hc, hlexemes]
    rfl
  | comment cs ih =>
    rw [skip_comment] at h ⊢
    obtain ⟨skipped, hcs, hlexemes⟩ := ih h
    have hsplit : cs = cs.takeWhile (· ≠ '\n') ++ (skipped ++ skip (cs.dropWhile (· ≠ '\n'))) := by
      rw [← hcs, List.takeWhile_append_dropWhile]
    refine ⟨';' :: (cs.takeWhile (· ≠ '\n') ++ skipped), ?_, fun p x => ?_⟩
    · rw [List.cons_append, List.append_assoc, ← hsplit]
    · -- the comment is over where a line feed follows, and a token cannot start with one
      have hbody : ∀ c ∈ cs.takeWhile (· ≠ '\n'), decide (c ≠ '\n') = true :=
        fun c hc => List.all_eq_true.mp List.all_takeWhile c hc
      obtain ⟨more, rfl⟩ : ∃ more, skipped = '\n' :: more := by
        cases skipped with
        | nil =>
          have hstart : Tight (skip (cs.dropWhile (· ≠ '\n'))) := tight_skip
          rw [← List.nil_append (skip _), ← hcs] at hstart h
          obtain ⟨d, ds, hds⟩ := List.exists_cons_of_ne_nil h
          have hstop := List.head?_dropWhile_not (· ≠ '\n') cs
          rw [hds] at hstop hstart
          have hline : d = '\n' := by simpa using hstop
          rw [hline] at hstart
          exact absurd (hstart '\n' rfl).1 (by decide)
        | cons d more =>
          have hstop := List.head?_dropWhile_not (· ≠ '\n') cs
          rw [hcs] at hstop
          have hline : d = '\n' := by simpa using hstop
          exact ⟨more, by rw [hline]⟩
      rw [List.cons_append, lexemes_comment, List.append_assoc, List.takeWhile_append_of_pos hbody,
        List.dropWhile_append_of_pos hbody]
      have hnone : ((('\n' :: more) ++ x).takeWhile fun d => decide (d ≠ '\n')) = [] := rfl
      have hall : ((('\n' :: more) ++ x).dropWhile fun d => decide (d ≠ '\n')) = ('\n' :: more) ++ x :=
        rfl
      rw [hnone, hall, List.append_nil, hlexemes, ← List.cons_append, Position.advance_append]

/-! ## Where tokens start -/

/-- The characters a token is written with. -/
def Token.chars : Token → List Char
  | .opening => ['(']
  | .closing => [')']
  | .word chars => chars

/-- What is left after the token that a text starts with. -/
def pastToken : List Char → List Char
  | [] => []
  | c :: cs => if isWordChar c then cs.dropWhile isWordChar else cs

/-- What is left of a text from its token number `n` on. -/
def fromToken : Nat → List Char → List Char
  | 0, cs => skip cs
  | n + 1, cs => fromToken n (pastToken (skip cs))

theorem pastToken_of_not_isWordChar (h : ¬isWordChar c) : pastToken (c :: cs) = cs := by
  rw [pastToken, if_neg h]

theorem pastToken_word (hw : ∀ c ∈ w, isWordChar c) (hne : w ≠ []) :
    pastToken (w ++ cs) = cs.dropWhile isWordChar := by
  cases w with
  | nil => exact absurd rfl hne
  | cons c w =>
    rw [List.cons_append, pastToken, if_pos (hw c List.mem_cons_self),
      List.dropWhile_append_of_pos fun d hd => hw d (List.mem_cons_of_mem c hd)]

theorem pastToken_append (hw : ∀ c ∈ w, isWordChar c) (h : w ≠ [] → StartsWord cs) :
    pastToken (w ++ cs) = pastToken cs := by
  by_cases hne : w = []
  · rw [hne, List.nil_append]
  · obtain ⟨c, cs, rfl, hword⟩ := h hne
    rw [pastToken_word hw hne, List.dropWhile_cons_of_pos hword, pastToken, if_pos hword]

theorem pastToken_length_lt (h : cs ≠ []) : (pastToken cs).length < cs.length := by
  cases cs with
  | nil => exact absurd rfl h
  | cons c cs =>
    have hle := (List.dropWhile_suffix (l := cs) isWordChar).length_le
    rw [pastToken, List.length_cons]
    split <;> omega

/-- A text that starts with a token starts with its characters. -/
theorem exists_token (h : Tight cs) (hne : cs ≠ []) :
    ∃ t : Token, cs = t.chars ++ pastToken cs ∧ t.chars ≠ [] ∧
      tokens cs = t :: tokens (pastToken cs) ∧ tokens t.chars = [t] ∧
      Separates t.chars (pastToken cs) := by
  rcases h.cases with rfl | ⟨cs', rfl⟩ | ⟨cs', rfl⟩ | ⟨c, cs', rfl, hc⟩
  · exact absurd rfl hne
  · rw [pastToken_of_not_isWordChar (by decide)]
    refine ⟨.opening, rfl, List.cons_ne_nil _ _, tokens_opening, ?_, fun p x _ => ?_⟩
    · rw [Token.chars, tokens_opening, tokens_nil]
    · rw [Token.chars, List.cons_append, List.nil_append, lexemes_opening, lexemes_opening, lexemes_nil]
      rfl
  · rw [pastToken_of_not_isWordChar (by decide)]
    refine ⟨.closing, rfl, List.cons_ne_nil _ _, tokens_closing, ?_, fun p x _ => ?_⟩
    · rw [Token.chars, tokens_closing, tokens_nil]
    · rw [Token.chars, List.cons_append, List.nil_append, lexemes_closing, lexemes_closing, lexemes_nil]
      rfl
  · rw [pastToken, if_pos hc]
    have hw : ∀ d ∈ c :: cs'.takeWhile isWordChar, isWordChar d := by
      intro d hd
      rcases List.mem_cons.mp hd with rfl | hd
      · exact hc
      · exact List.all_eq_true.mp List.all_takeWhile d hd
    have hlexemes : ∀ p x, ¬StartsWord x → lexemes p (c :: cs'.takeWhile isWordChar ++ x) =
        ⟨.word (c :: cs'.takeWhile isWordChar), p⟩ ::
          lexemes (p.advance (c :: cs'.takeWhile isWordChar)) x := by
      intro p x hx
      have hw' : ∀ d ∈ cs'.takeWhile isWordChar, isWordChar d :=
        fun d hd => hw d (List.mem_cons_of_mem _ hd)
      rw [List.cons_append, lexemes_word hc, List.takeWhile_append_of_pos hw',
        List.dropWhile_append_of_pos hw', takeWhile_of_not_startsWord hx,
        dropWhile_of_not_startsWord hx, List.append_nil]
    refine ⟨.word (c :: cs'.takeWhile isWordChar), ?_, List.cons_ne_nil _ _, tokens_word hc, ?_,
      fun p x hx => ?_⟩
    · rw [Token.chars, List.cons_append, List.takeWhile_append_dropWhile]
    · have h := hlexemes Position.start [] not_startsWord_nil
      rw [List.append_nil, lexemes_nil] at h
      rw [Token.chars, tokens, h]
      rfl
    · have h := hlexemes p [] not_startsWord_nil
      rw [List.append_nil, lexemes_nil] at h
      rw [Token.chars, hlexemes p x fun hword => not_startsWord_dropWhile (hx hword), h]
      rfl

theorem fromToken_nil : fromToken n [] = [] := by
  induction n with
  | zero => exact skip_of_tight Peg.tight_nil
  | succ n ih =>
    rw [fromToken, skip_of_tight Peg.tight_nil]
    exact ih

theorem tight_fromToken : Tight (fromToken n cs) := by
  induction n generalizing cs with
  | zero => exact tight_skip
  | succ n ih => exact ih

theorem tokens_pastToken (h : Tight cs) : tokens (pastToken cs) = (tokens cs).tail := by
  by_cases hne : cs = []
  · rw [hne, pastToken, tokens_nil, List.tail_nil]
  · obtain ⟨t, -, -, htokens, -⟩ := exists_token h hne
    rw [htokens, List.tail_cons]

theorem tokens_fromToken (n : Nat) (cs : List Char) :
    tokens (fromToken n cs) = (tokens cs).drop n := by
  induction n generalizing cs with
  | zero => exact tokens_skip
  | succ n ih => rw [fromToken, ih, tokens_pastToken tight_skip, tokens_skip, List.drop_tail]

theorem fromToken_succ : fromToken (n + 1) cs = skip (pastToken (fromToken n cs)) := by
  induction n generalizing cs with
  | zero => rfl
  | succ n ih => rw [fromToken, ih, fromToken]

theorem fromToken_suffix : fromToken n cs <:+ cs := by
  have hpast : ∀ cs, pastToken cs <:+ cs := by
    intro cs
    cases cs with
    | nil => exact List.suffix_rfl
    | cons c cs =>
      rw [pastToken]
      split
      · exact (List.dropWhile_suffix _).trans (List.suffix_cons c cs)
      · exact List.suffix_cons c cs
  induction n generalizing cs with
  | zero => exact skip_suffix
  | succ n ih => exact ih.trans ((hpast _).trans skip_suffix)

/-- Before each token of a text stand the tokens with lesser numbers. -/
theorem exists_front (h : fromToken n text ≠ []) :
    ∃ front, text = front ++ fromToken n text ∧ (tokens front).length = n ∧
      Separates front (fromToken n text) := by
  induction n generalizing text with
  | zero =>
    obtain ⟨skipped, hcs, hlexemes⟩ := exists_skipped h
    have hnone : ∀ p, lexemes p skipped = [] := by
      intro p
      have h := hlexemes p []
      rwa [List.append_nil, lexemes_nil] at h
    refine ⟨skipped, hcs, ?_, fun p x _ => ?_⟩
    · rw [tokens, hnone]
      rfl
    · rw [hlexemes, hnone, List.nil_append]
  | succ n ih =>
    have hskip : skip text ≠ [] := by
      intro hnil
      rw [fromToken, hnil, pastToken, fromToken_nil] at h
      exact h rfl
    obtain ⟨skipped, hcs, hlexemes⟩ := exists_skipped hskip
    obtain ⟨t, ht, -, -, hone, hsep⟩ := exists_token tight_skip hskip
    obtain ⟨front, hfront, hlen, hsep'⟩ := ih h
    rw [hfront] at hsep
    refine ⟨skipped ++ (t.chars ++ front), ?_, ?_, fun p x hx => ?_⟩
    · rw [fromToken, List.append_assoc, List.append_assoc, ← hfront, ← ht, ← hcs]
    · have htokens : tokens (skipped ++ (t.chars ++ front)) = tokens (t.chars ++ front) := by
        rw [tokens, hlexemes, tokens]
        exact map_token_lexemes _ _ _
      rw [htokens, hsep.tokens_append StartsWord.append, hone, List.singleton_append, List.length_cons, hlen]
    · rw [List.append_assoc, hlexemes, hsep.trans hsep' _ _ hx, hlexemes, Position.advance_append,
        Position.advance_append, Position.advance_append]

/-! ## Where parts meet -/

theorem dropWhile_append_of_ne_nil {f : Char → Bool} (h : cs.dropWhile f ≠ []) :
    (cs ++ x).dropWhile f = cs.dropWhile f ++ x ∧ (cs ++ x).takeWhile f = cs.takeWhile f := by
  have hsplit : (cs.takeWhile f).length + (cs.dropWhile f).length = cs.length := by
    rw [← List.length_append, List.takeWhile_append_dropWhile]
  have hpos := List.length_pos_iff.mpr h
  rw [List.dropWhile_append, List.takeWhile_append, if_neg (by simpa using h), if_neg (by omega)]
  exact ⟨rfl, rfl⟩

/-- A stretch ends before a character that does not belong to it, if not earlier. -/
theorem dropWhile_append_cons {f : Char → Bool} {c : Char} (hc : f c = false) :
    (cs ++ c :: x).dropWhile f = cs.dropWhile f ++ c :: x ∧
      (cs ++ c :: x).takeWhile f = cs.takeWhile f := by
  by_cases h : cs.dropWhile f = []
  · have hcs := List.takeWhile_eq_self_iff.mpr (List.dropWhile_eq_nil_iff.mp h)
    rw [List.dropWhile_append, List.takeWhile_append, h, hcs, List.isEmpty_nil, if_pos rfl, if_pos rfl,
      List.dropWhile_cons_of_neg (by simp [hc]), List.takeWhile_cons_of_neg (by simp [hc]),
      List.append_nil]
    exact ⟨rfl, rfl⟩
  · exact dropWhile_append_of_ne_nil h

/-- A line feed separates tokens, also those of a comment from those after it. -/
theorem tokens_append_newline (front back : List Char) :
    tokens (front ++ '\n' :: back) = tokens front ++ tokens back := by
  induction front using text_induction with
  | nil => rw [List.nil_append, tokens_blank (by decide), tokens_nil, List.nil_append]
  | blank c cs hc ih => rw [List.cons_append, tokens_blank hc, tokens_blank hc, ih]
  | opening cs ih => rw [List.cons_append, tokens_opening, tokens_opening, ih, List.cons_append]
  | closing cs ih => rw [List.cons_append, tokens_closing, tokens_closing, ih, List.cons_append]
  | comment cs ih => rw [List.cons_append, tokens_comment, tokens_comment,
      (dropWhile_append_cons (by decide)).1, ih]
  | word c cs hc ih =>
    rw [List.cons_append, tokens_word hc, tokens_word hc, (dropWhile_append_cons (by decide)).2,
      (dropWhile_append_cons (by decide)).1, ih, List.cons_append]

theorem tokens_ne_nil (h : Tight cs) (hne : cs ≠ []) : tokens cs ≠ [] := by
  obtain ⟨t, -, -, htokens, -⟩ := exists_token h hne
  rw [htokens]
  exact List.cons_ne_nil _ _

theorem Peg.Tight.of_append (h : Tight (cs ++ ds)) (hne : cs ≠ []) : Tight cs := by
  cases cs with
  | nil => exact absurd rfl hne
  | cons c cs => exact h

/-- A comment before a token takes the token away, if it goes on there. -/
theorem length_tokens_dropWhile_lt (h : Tight x) (hne : x ≠ []) :
    (tokens (x.dropWhile (· ≠ '\n'))).length < (tokens x).length := by
  have hpos := List.length_pos_iff.mpr (tokens_ne_nil h hne)
  match hline : x.dropWhile (· ≠ '\n') with
  | [] => simpa using hpos
  | c :: back =>
    obtain rfl : c = '\n' := by
      have hstop := List.head?_dropWhile_not (· ≠ '\n') x
      rw [hline] at hstop
      simpa using hstop
    have hsplit : x = x.takeWhile (· ≠ '\n') ++ '\n' :: back := by
      rw [← hline, List.takeWhile_append_dropWhile]
    have hfront : x.takeWhile (· ≠ '\n') ≠ [] := by
      intro hnil
      rw [hnil] at hsplit
      rw [hsplit] at h
      exact absurd (h '\n' rfl).1 (by decide)
    have htight : Tight (x.takeWhile (· ≠ '\n')) := Peg.Tight.of_append (hsplit ▸ h) hfront
    have hlen := List.length_pos_iff.mpr (tokens_ne_nil htight hfront)
    rw [hsplit, tokens_append_newline, tokens_blank (by decide), List.length_append]
    omega

/-- If no token is lost where two parts meet, the first part is complete. -/
theorem separates_of_length_le (hx : Tight x) (hne : x ≠ [])
    (h : (tokens front).length + (tokens x).length ≤ (tokens (front ++ x)).length) :
    Separates front x := by
  induction front using text_induction with
  | nil =>
    intro p y _
    rw [lexemes_nil]
    rfl
  | blank c cs hc ih =>
    rw [List.cons_append, tokens_blank hc, tokens_blank hc] at h
    intro p y hy
    rw [List.cons_append, lexemes_blank hc, lexemes_blank hc, ih h _ _ hy]
    rfl
  | opening cs ih =>
    rw [List.cons_append, tokens_opening, tokens_opening, List.length_cons, List.length_cons] at h
    intro p y hy
    rw [List.cons_append, lexemes_opening, lexemes_opening, ih (by omega) _ _ hy]
    rfl
  | closing cs ih =>
    rw [List.cons_append, tokens_closing, tokens_closing, List.length_cons, List.length_cons] at h
    intro p y hy
    rw [List.cons_append, lexemes_closing, lexemes_closing, ih (by omega) _ _ hy]
    rfl
  | comment cs ih =>
    rw [List.cons_append, tokens_comment, tokens_comment] at h
    by_cases hnil : cs.dropWhile (· ≠ '\n') = []
    · rw [List.dropWhile_append, hnil, List.isEmpty_nil, if_pos rfl, tokens_nil, List.length_nil] at h
      have hlt := length_tokens_dropWhile_lt hx hne
      omega
    · rw [(dropWhile_append_of_ne_nil hnil).1] at h
      intro p y hy
      rw [List.cons_append, lexemes_comment, lexemes_comment, (dropWhile_append_of_ne_nil hnil).1,
        (dropWhile_append_of_ne_nil hnil).2, ih h _ _ hy, ← Position.advance_append, List.cons_append,
        List.takeWhile_append_dropWhile]
  | word c cs hc ih =>
    rw [List.cons_append, tokens_word hc, tokens_word hc, List.length_cons, List.length_cons] at h
    by_cases hnil : cs.dropWhile isWordChar = []
    · have hall := List.dropWhile_eq_nil_iff.mp hnil
      have hcs := List.takeWhile_eq_self_iff.mpr hall
      have hword : ¬StartsWord x := by
        rintro ⟨d, ds, rfl, hword⟩
        rw [List.dropWhile_append, hnil, List.isEmpty_nil, if_pos rfl, List.dropWhile_cons_of_pos hword,
          tokens_word hword, tokens_nil, List.length_nil, List.length_cons] at h
        omega
      intro p y hy
      have hy' : ¬StartsWord y := fun hstart => hword (hy hstart)
      rw [List.cons_append, lexemes_word hc, lexemes_word hc, hnil, hcs, lexemes_nil,
        List.takeWhile_append_of_pos hall, List.dropWhile_append_of_pos hall,
        takeWhile_of_not_startsWord hy', dropWhile_of_not_startsWord hy', List.append_nil]
      rfl
    · rw [(dropWhile_append_of_ne_nil hnil).1] at h
      intro p y hy
      rw [List.cons_append, lexemes_word hc, lexemes_word hc, (dropWhile_append_of_ne_nil hnil).1,
        (dropWhile_append_of_ne_nil hnil).2, ih (by omega) _ _ hy, ← Position.advance_append,
        List.cons_append, List.takeWhile_append_dropWhile]
      rfl

/-- Where a complete part ends, the token starts that has as many before it. -/
theorem Separates.fromToken_eq (h : Separates front x) (hx : Tight x) (hne : x ≠ []) :
    fromToken (tokens front).length (front ++ x) = x := by
  have hsome : fromToken (tokens front).length (front ++ x) ≠ [] := by
    intro hnil
    have htokens := tokens_fromToken (tokens front).length (front ++ x)
    rw [hnil, tokens_nil, h.tokens_append id, List.drop_left] at htokens
    exact tokens_ne_nil hx hne htokens.symm
  obtain ⟨front', hfront', hcount, hsep⟩ := exists_front hsome
  have htight : Tight (fromToken (tokens front).length (front ++ x)) := tight_fromToken
  generalize fromToken (tokens front).length (front ++ x) = y at hfront' hsep hsome htight
  -- a token between the ends of the two parts would be one too many
  rcases List.append_eq_append_iff.mp hfront' with ⟨m, rfl, rfl⟩ | ⟨m, rfl, rfl⟩
  · by_cases hm : m = []
    · rw [hm, List.nil_append]
    · rw [h.tokens_append StartsWord.append, List.length_append] at hcount
      have hpos := List.length_pos_iff.mpr (tokens_ne_nil (hx.of_append hm) hm)
      omega
  · by_cases hm : m = []
    · rw [hm, List.nil_append]
    · rw [hsep.tokens_append StartsWord.append, List.length_append] at hcount
      have hpos := List.length_pos_iff.mpr (tokens_ne_nil (htight.of_append hm) hm)
      omega

end GraphHom
