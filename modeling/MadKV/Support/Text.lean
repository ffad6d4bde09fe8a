import Mathlib.Data.List.DropRight
import Mathlib.Tactic

/-!
# Words and lines

Texts over any alphabet, cut into words at the characters of a class `p` and
into lines at one character. `Spaced` says, without a cutting function, that a
text writes down given words with gaps between them; `words` recovers them.
-/

namespace MadKV.Support

variable {α : Type*} {p q : α → Bool}

/-- The first element with a property, and what comes before and after it. -/
theorem first_split {P : α → Prop} {l : List α} (h : ∃ a ∈ l, P a) :
    ∃ before a after, l = before ++ a :: after ∧ (∀ b ∈ before, ¬ P b) ∧ P a := by
  induction l with
  | nil => simp at h
  | cons a l ih =>
    by_cases ha : P a
    · exact ⟨[], a, l, rfl, by simp, ha⟩
    · obtain ⟨before, b, after, rfl, hbefore, hb⟩ := ih (by simpa [ha] using h)
      refine ⟨a :: before, b, after, rfl, fun c hc => ?_, hb⟩
      rcases List.mem_cons.mp hc with rfl | hc
      · exact ha
      · exact hbefore c hc

theorem mem_after_first {P : α → Prop} {l before after : List α} {a x : α}
    (hsplit : l = before ++ a :: after) (hbefore : ∀ b ∈ before, ¬ P b) (hx : x ∈ l) (hP : P x)
    (hne : x ≠ a) : x ∈ after := by
  rw [hsplit] at hx
  rcases List.mem_append.mp hx with hx | hx
  · exact absurd hP (hbefore x hx)
  · exact (List.mem_cons.mp hx).resolve_left hne

/-! ## Words -/

/-- The maximal runs of characters outside `p`. -/
def words (p : α → Bool) (text : List α) : List (List α) :=
  (text.splitOnP p).filter fun word => !word.isEmpty

/-- A word that `words` cannot cut. -/
def Token (p : α → Bool) (word : List α) : Prop :=
  word ≠ [] ∧ ∀ c ∈ word, p c = false

/-- A stretch of gap characters. -/
def Gap (p : α → Bool) (gap : List α) : Prop :=
  ∀ c ∈ gap, p c = true

instance (p : α → Bool) (word : List α) [DecidableEq α] : Decidable (Token p word) :=
  inferInstanceAs (Decidable (word ≠ [] ∧ ∀ c ∈ word, p c = false))

instance (p : α → Bool) (gap : List α) : Decidable (Gap p gap) :=
  inferInstanceAs (Decidable (∀ c ∈ gap, p c = true))

theorem gap_nil : Gap p [] := by simp [Gap]

/-- The text consists of the given words, with gaps around and between them. -/
inductive Spaced (p : α → Bool) : List (List α) → List α → Prop
  | blank {gap : List α} : Gap p gap → Spaced p [] gap
  | last {gap word after : List α} : Gap p gap → Token p word → Gap p after →
      Spaced p [word] (gap ++ word ++ after)
  | more {gap word rest : List α} {ws : List (List α)} {c : α} : Gap p gap → Token p word →
      p c = true → Spaced p ws rest → Spaced p (word :: ws) (gap ++ word ++ c :: rest)

theorem words_token {word : List α} (h : Token p word) : words p word = [word] := by
  rw [words, List.splitOnP_eq_singleton h.2]
  simp [h.1]

@[simp] theorem words_nil : words p [] = [] := rfl

/-- A gap character separates the words before it from those behind it. -/
theorem words_append_cons (before after : List α) {c : α} (hc : p c = true) :
    words p (before ++ c :: after) = words p before ++ words p after := by
  simp [words, List.splitOnP_append_cons _ _ hc]

theorem words_gap_append {gap : List α} (h : Gap p gap) (text : List α) :
    words p (gap ++ text) = words p text := by
  induction gap with
  | nil => rfl
  | cons c gap ih =>
    have hcons := words_append_cons [] (gap ++ text) (h c (by simp))
    rw [words_nil, List.nil_append, List.nil_append] at hcons
    rw [List.cons_append, hcons, ih fun d hd => h d (by simp [hd])]

theorem words_append_gap {gap : List α} (h : Gap p gap) (text : List α) :
    words p (text ++ gap) = words p text := by
  cases gap with
  | nil => simp
  | cons c gap =>
    have hgap : words p gap = [] := by
      simpa using words_gap_append (p := p) (fun d hd => h d (by simp [hd])) ([] : List α)
    rw [words_append_cons text gap (h c (by simp)), hgap, List.append_nil]

theorem words_gap {gap : List α} (h : Gap p gap) : words p gap = [] := by
  simpa using words_gap_append h []

/-- Cutting a spaced text gives back its words. -/
theorem Spaced.words {ws : List (List α)} {text : List α} (h : Spaced p ws text) :
    words p text = ws := by
  induction h with
  | blank hgap => exact words_gap hgap
  | last hgap hword hafter =>
    rw [words_append_gap hafter, words_gap_append hgap, words_token hword]
  | @more gap word rest ws c hgap hword hc _ ih =>
    rw [words_append_cons _ _ hc, words_gap_append hgap, words_token hword, ih,
      List.singleton_append]

theorem Spaced.tokens {ws : List (List α)} {text : List α} (h : Spaced p ws text) :
    ∀ w ∈ ws, Token p w := by
  induction h with
  | blank => simp
  | last _ hword _ => simpa using hword
  | more _ hword _ _ ih => simpa using ⟨hword, ih⟩

theorem mem_intercalate {ws : List (List α)} {c x : α} (h : x ∈ [c].intercalate ws) :
    x = c ∨ ∃ w ∈ ws, x ∈ w := by
  induction ws with
  | nil => simp at h
  | cons w ws ih =>
    cases ws with
    | nil => exact .inr ⟨w, by simp, by simpa using h⟩
    | cons v ws =>
      rw [List.intercalate_cons_cons, List.mem_append, List.mem_append, List.mem_singleton] at h
      rcases h with (h | h) | h
      · exact .inr ⟨w, by simp, h⟩
      · exact .inl h
      · exact (ih h).imp_right fun ⟨u, hu, hx⟩ => ⟨u, by simp [hu], hx⟩

/-- Words written with one gap character between them are recovered. -/
theorem words_intercalate {ws : List (List α)} {c : α} (hc : p c = true)
    (h : ∀ w ∈ ws, Token p w) : words p ([c].intercalate ws) = ws := by
  induction ws with
  | nil => rfl
  | cons w ws ih =>
    cases ws with
    | nil => simpa using words_token (h w (by simp))
    | cons v ws =>
      have hrest := ih fun u hu => h u (by simp [hu])
      rw [List.intercalate_cons_cons, List.append_assoc, List.singleton_append,
        words_append_cons _ _ hc, words_token (h w (by simp)), hrest, List.singleton_append]

/-- Every text is spaced by its words. -/
theorem spaced_words (text : List α) : Spaced p (words p text) text := by
  induction hn : text.length using Nat.strong_induction_on generalizing text with
  | _ n ih =>
    have hgap : Gap p (text.takeWhile p) := fun c hc => List.mem_takeWhile_imp hc
    have htext := List.takeWhile_append_dropWhile (p := p) (l := text)
    cases hd : text.dropWhile p with
    | nil =>
      rw [hd, List.append_nil] at htext
      rw [← htext, words_gap hgap]
      exact .blank hgap
    | cons d tail =>
      have hdp : p d = false := by
        have hhead := List.head_dropWhile_not p (l := text) (by simp [hd])
        simpa [hd] using hhead
      let word := (d :: tail).takeWhile fun c => !p c
      have hword : Token p word := by
        refine ⟨by simp [word, hdp], fun c hc => ?_⟩
        simpa using List.mem_takeWhile_imp hc
      have hsplit : word ++ (d :: tail).dropWhile (fun c => !p c) = d :: tail :=
        List.takeWhile_append_dropWhile
      rw [← htext, hd, ← hsplit, ← List.append_assoc]
      cases hrest : (d :: tail).dropWhile fun c => !p c with
      | nil =>
        rw [words_append_gap gap_nil, words_gap_append hgap, words_token hword]
        exact .last hgap hword gap_nil
      | cons c rest =>
        have hcp : p c = true := by
          have hhead := List.head_dropWhile_not (fun c => !p c) (l := d :: tail) (by simp [hrest])
          simpa [hrest] using hhead
        have hshort : rest.length < n := by
          have hlen := congrArg List.length htext
          rw [hd, ← hsplit, hrest] at hlen
          simp only [List.length_append, List.length_cons] at hlen
          omega
        rw [words_append_cons _ _ hcp, words_gap_append hgap, words_token hword]
        exact .more hgap hword hcp (ih _ hshort rest rfl)

theorem spaced_iff {ws : List (List α)} {text : List α} :
    Spaced p ws text ↔ words p text = ws :=
  ⟨Spaced.words, fun h => h ▸ spaced_words text⟩

theorem token_of_mem_words {text w : List α} (h : w ∈ words p text) : Token p w :=
  (spaced_words text).tokens w h

/-- More characters count as gaps: the words are cut further. -/
theorem words_refine {text : List α} (hpq : ∀ c, p c = true → q c = true) :
    words q text = (words p text).flatMap (words q) := by
  have hgap : ∀ {gap : List α}, Gap p gap → Gap q gap := fun h c hc => hpq c (h c hc)
  have hspaced : ∀ {ws : List (List α)} {text : List α}, Spaced p ws text →
      words q text = ws.flatMap (words q) := by
    intro ws text h
    induction h with
    | blank h => exact words_gap (hgap h)
    | last h _ hafter => simp [words_append_gap (hgap hafter), words_gap_append (hgap h)]
    | more h _ hc _ ih =>
      rw [words_append_cons _ _ (hpq _ hc), words_gap_append (hgap h), ih, List.flatMap_cons]
  exact hspaced (spaced_words text)

/-- More characters count as gaps: the text is spaced all the same, so long as
none of them occurs in a word. -/
theorem Spaced.mono {ws : List (List α)} {text : List α} (h : Spaced p ws text)
    (hpq : ∀ c, p c = true → q c = true) (hws : ∀ w ∈ ws, ∀ c ∈ w, q c = false) :
    Spaced q ws text := by
  induction h with
  | blank hgap => exact .blank fun c hc => hpq c (hgap c hc)
  | last hgap hword hafter =>
    exact .last (fun c hc => hpq c (hgap c hc)) ⟨hword.1, hws _ (by simp)⟩
      fun c hc => hpq c (hafter c hc)
  | more hgap hword hc _ ih =>
    exact .more (fun c hc => hpq c (hgap c hc)) ⟨hword.1, hws _ (by simp)⟩ (hpq _ hc)
      (ih fun w hw => hws w (by simp [hw]))

theorem words_eq_nil_iff {text : List α} : words p text = [] ↔ Gap p text := by
  refine ⟨fun h => ?_, words_gap⟩
  induction text with
  | nil => simp [Gap]
  | cons c text ih =>
    by_cases hc : p c = true
    · have hcons := words_append_cons [] text hc
      rw [words_nil, List.nil_append, List.nil_append, h] at hcons
      intro d hd
      rcases List.mem_cons.mp hd with rfl | hd
      · exact hc
      · exact ih hcons.symm d hd
    · obtain ⟨w, ws, hw⟩ := List.exists_cons_of_ne_nil (List.splitOnP_ne_nil p text)
      simp [words, List.splitOnP_cons_eq_if_modifyHead, hc, hw] at h

/-! ## Words between separators -/

/-- A text that begins with a gap character. -/
def Opens (p : α → Bool) (text : List α) : Prop := ∃ c ∈ text.head?, p c = true

/-- A text that ends with a gap character. -/
def Closes (p : α → Bool) (text : List α) : Prop := ∃ c ∈ text.getLast?, p c = true

/-- A text that begins and ends with a gap character. -/
def Separates (p : α → Bool) (sep : List α) : Prop := Opens p sep ∧ Closes p sep

instance (p : α → Bool) (text : List α) : Decidable (Opens p text) :=
  inferInstanceAs (Decidable (∃ c ∈ text.head?, p c = true))

instance (p : α → Bool) (text : List α) : Decidable (Closes p text) :=
  inferInstanceAs (Decidable (∃ c ∈ text.getLast?, p c = true))

instance (p : α → Bool) (sep : List α) : Decidable (Separates p sep) :=
  inferInstanceAs (Decidable (Opens p sep ∧ Closes p sep))

theorem words_cons {c : α} (hc : p c = true) (text : List α) :
    words p (c :: text) = words p text := by
  simpa using words_append_cons [] text hc

/-- What begins with a gap character does not continue the words before it. -/
theorem Opens.words_append {b : List α} (h : Opens p b) (a : List α) :
    words p (a ++ b) = words p a ++ words p b := by
  obtain ⟨c, hc, hp⟩ := h
  obtain ⟨rest, rfl⟩ := List.head?_eq_some_iff.mp hc
  rw [words_append_cons a rest hp, words_cons hp]

theorem Closes.words_append {a : List α} (h : Closes p a) (b : List α) :
    words p (a ++ b) = words p a ++ words p b := by
  obtain ⟨c, hc, hp⟩ := h
  obtain ⟨init, rfl⟩ := List.getLast?_eq_some_iff.mp hc
  have hgap : Gap p [c] := by simpa [Gap] using hp
  rw [List.append_assoc, List.singleton_append, words_append_cons init b hp, words_append_gap hgap]

theorem Closes.append {b : List α} (h : Closes p b) (a : List α) : Closes p (a ++ b) := by
  obtain ⟨c, hc, hp⟩ := h
  have hne : b ≠ [] := by
    rintro rfl
    simp at hc
  exact ⟨c, by rwa [List.getLast?_append_of_ne_nil _ hne], hp⟩

theorem Separates.words_append {sep : List α} (h : Separates p sep) (a b : List α) :
    words p (a ++ sep ++ b) = words p a ++ words p sep ++ words p b := by
  rw [(h.2.append a).words_append, h.1.words_append]

/-! ## Infixes -/

/-- A text without gap characters does not reach across one. -/
theorem infix_append_cons_iff {pat a b : List α} {c : α} (hc : p c = true)
    (hpat : ∀ x ∈ pat, p x = false) : pat <:+: a ++ c :: b ↔ pat <:+: a ∨ pat <:+: b := by
  have hcpat : c ∉ pat := fun hmem => by
    have hp := hpat c hmem
    rw [hc] at hp
    cases hp
  constructor
  · rintro ⟨s, t, h⟩
    rcases List.append_eq_append_iff.mp h with ⟨u, ha, -⟩ | ⟨u, hs, ht⟩
    · exact .inl ⟨s, u, ha.symm⟩
    · cases u with
      | nil => exact .inl ⟨s, [], by simpa using hs⟩
      | cons d u =>
        obtain ⟨rfl, rfl⟩ := List.cons.inj ht
        -- the separator lies before the infix, as it cannot lie inside
        rcases List.append_eq_append_iff.mp hs with ⟨v, -, hv⟩ | ⟨v, -, hv⟩
        · exact absurd (hv ▸ by simp) hcpat
        · cases v with
          | nil => exact absurd (by rw [List.nil_append] at hv; simp [← hv]) hcpat
          | cons e v =>
            obtain ⟨-, rfl⟩ := List.cons.inj hv
            exact .inr ⟨v, t, rfl⟩
  · rintro (⟨s, t, rfl⟩ | ⟨s, t, rfl⟩)
    · exact ⟨s, t ++ c :: b, by simp⟩
    · exact ⟨a ++ c :: s, t, by simp⟩

theorem Token.infix_gap_append_iff {pat gap : List α} (h : Token p pat) (hgap : Gap p gap)
    (text : List α) : pat <:+: gap ++ text ↔ pat <:+: text := by
  induction gap with
  | nil => rfl
  | cons c gap ih =>
    have hsplit := infix_append_cons_iff (a := []) (b := gap ++ text) (hgap c (by simp)) h.2
    rw [List.cons_append, ← List.nil_append (c :: (gap ++ text)), hsplit, List.infix_nil,
      ih fun d hd => hgap d (by simp [hd])]
    exact or_iff_right h.1

theorem Token.infix_append_gap_iff {pat gap : List α} (h : Token p pat) (hgap : Gap p gap)
    (text : List α) : pat <:+: text ++ gap ↔ pat <:+: text := by
  cases gap with
  | nil => simp
  | cons c gap =>
    have hnone : ¬ pat <:+: gap := by
      have hgap' : Gap p gap := fun d hd => hgap d (by simp [hd])
      have hnil := (h.infix_gap_append_iff hgap' []).not
      rw [List.append_nil, List.infix_nil] at hnil
      exact hnil.mpr h.1
    rw [infix_append_cons_iff (hgap c (by simp)) h.2]
    exact or_iff_left hnone

/-- A word occurs in a text when it occurs in one of the text's words. -/
theorem Token.infix_iff {pat : List α} (h : Token p pat) (text : List α) :
    pat <:+: text ↔ ∃ w ∈ words p text, pat <:+: w := by
  have hspaced : ∀ {ws : List (List α)} {text : List α}, Spaced p ws text →
      (pat <:+: text ↔ ∃ w ∈ ws, pat <:+: w) := by
    intro ws text hs
    induction hs with
    | blank hgap =>
      have hnil := h.infix_gap_append_iff hgap []
      rw [List.append_nil, List.infix_nil] at hnil
      simpa [hnil] using h.1
    | last hgap _ hafter =>
      rw [h.infix_append_gap_iff hafter, h.infix_gap_append_iff hgap]
      simp
    | more hgap _ hc _ ih =>
      rw [infix_append_cons_iff hc h.2, h.infix_gap_append_iff hgap, ih]
      simp
  exact hspaced (spaced_words text)

/-- A word occurs to one side of a separator or in it. -/
theorem Token.infix_separated_iff {pat sep : List α} (h : Token p pat) (hsep : Separates p sep)
    (a b : List α) : pat <:+: a ++ sep ++ b ↔ pat <:+: a ∨ pat <:+: sep ∨ pat <:+: b := by
  rw [h.infix_iff, hsep.words_append, h.infix_iff a, h.infix_iff sep, h.infix_iff b]
  simp only [List.mem_append, or_and_right, exists_or, or_assoc]

/-! ## Trimming -/

/-- The text without the gaps at its two ends. -/
def trim (p : α → Bool) (text : List α) : List α :=
  (text.dropWhile p).rdropWhile p

/-- A text that begins and ends outside `p`. -/
structure Trimmed (p : α → Bool) (core : List α) : Prop where
  ne_nil : core ≠ []
  head : ∀ c ∈ core.head?, p c = false
  last : ∀ c ∈ core.getLast?, p c = false

instance (p : α → Bool) (core : List α) [DecidableEq α] : Decidable (Trimmed p core) :=
  decidable_of_iff
    (core ≠ [] ∧ (∀ c ∈ core.head?, p c = false) ∧ ∀ c ∈ core.getLast?, p c = false)
    ⟨fun h => ⟨h.1, h.2.1, h.2.2⟩, fun h => ⟨h.ne_nil, h.head, h.last⟩⟩

theorem Token.trimmed {word : List α} (h : Token p word) : Trimmed p word where
  ne_nil := h.1
  head := fun c hc => h.2 c (List.mem_of_mem_head? hc)
  last := fun c hc => h.2 c (List.mem_of_getLast? hc)

theorem Trimmed.append {first last : List α} (hf : Trimmed p first) (hl : Trimmed p last)
    (middle : List α) : Trimmed p (first ++ middle ++ last) where
  ne_nil := by simp [hf.ne_nil]
  head := by
    intro c hc
    rw [List.append_assoc, List.head?_append_of_ne_nil _ hf.ne_nil] at hc
    exact hf.head c hc
  last := by
    intro c hc
    rw [List.getLast?_append_of_ne_nil _ hl.ne_nil] at hc
    exact hl.last c hc

theorem trim_eq_nil_iff {text : List α} : trim p text = [] ↔ Gap p text := by
  rw [trim, List.rdropWhile_eq_nil_iff]
  constructor
  · intro h
    have hdrop : text.dropWhile p = [] := by
      by_contra hne
      have hhead := List.head_dropWhile_not p hne
      rw [h _ (List.head_mem hne)] at hhead
      exact absurd hhead (by simp)
    exact List.dropWhile_eq_nil_iff.mp hdrop
  · intro h
    simp [List.dropWhile_eq_nil_iff.mpr h]

theorem trim_gaps {before core after : List α} (hb : Gap p before) (hc : Trimmed p core)
    (ha : Gap p after) : trim p (before ++ core ++ after) = core := by
  obtain ⟨c, rest, rfl⟩ := List.exists_cons_of_ne_nil hc.ne_nil
  have hhead : p c = false := hc.head c rfl
  obtain ⟨init, d, hd⟩ := List.eq_nil_or_concat (c :: rest) |>.resolve_left (by simp)
  have hlast : p d = false := hc.last d (by simp [hd])
  have hfront : (before ++ (c :: rest) ++ after).dropWhile p = (c :: rest) ++ after := by
    rw [List.append_assoc, List.dropWhile_append_of_pos hb]
    simp [hhead]
  rw [trim, hfront, List.rdropWhile, List.reverse_append,
    List.dropWhile_append_of_pos fun x hx => ha x (List.mem_reverse.mp hx), hd]
  simp [hlast]

theorem trim_gap_append {gap : List α} (h : Gap p gap) (text : List α) :
    trim p (gap ++ text) = trim p text := by
  rw [trim, List.dropWhile_append_of_pos h, trim]

theorem words_trim (text : List α) : words p (trim p text) = words p text := by
  have hfront : Gap p (text.takeWhile p) := fun c hc => List.mem_takeWhile_imp hc
  have hback : Gap p ((text.dropWhile p).rtakeWhile p) := fun c hc => by
    rw [List.rtakeWhile, List.mem_reverse] at hc
    exact List.mem_takeWhile_imp hc
  calc words p (trim p text)
      = words p (trim p text ++ (text.dropWhile p).rtakeWhile p) :=
        (words_append_gap hback _).symm
    _ = words p (text.dropWhile p) := by rw [trim, List.rdropWhile_append_rtakeWhile]
    _ = words p (text.takeWhile p ++ text.dropWhile p) := (words_gap_append hfront _).symm
    _ = words p text := by rw [List.takeWhile_append_dropWhile]

theorem trim_append_gap {gap : List α} (h : Gap p gap) (text : List α) :
    trim p (text ++ gap) = trim p text := by
  have hrev : ∀ c ∈ gap.reverse, p c = true := fun c hc => h c (List.mem_reverse.mp hc)
  by_cases htext : ∀ c ∈ text, p c = true
  · have hboth : Gap p (text ++ gap) := fun c hc =>
      (List.mem_append.mp hc).elim (htext c) (h c)
    rw [trim_eq_nil_iff.mpr hboth, trim_eq_nil_iff.mpr htext]
  · have hfront : (text ++ gap).dropWhile p = text.dropWhile p ++ gap := by
      rw [List.dropWhile_append, if_neg]
      simpa [List.dropWhile_eq_nil_iff] using htext
    rw [trim, hfront, List.rdropWhile, List.reverse_append, List.dropWhile_append_of_pos hrev, trim,
      List.rdropWhile]

/-- Trimming stops at a suffix that ends outside `p`. -/
theorem suffix_trim {a b : List α} (ha : ¬ Gap p a) (hne : b ≠ []) (hb : ¬ Closes p b) :
    b <:+ trim p (a ++ b) := by
  have hfront : (a ++ b).dropWhile p = a.dropWhile p ++ b := by
    rw [List.dropWhile_append, if_neg]
    simpa [List.dropWhile_eq_nil_iff, Gap] using ha
  have hself : (a.dropWhile p ++ b).rdropWhile p = a.dropWhile p ++ b := by
    rw [List.rdropWhile_eq_self_iff]
    intro hne'
    rw [List.getLast_append_of_ne_nil _ hne]
    exact fun hc => hb ⟨_, List.getLast_mem_getLast? hne, hc⟩
  rw [trim, hfront, hself]
  exact List.suffix_append _ _

theorem infix_dropWhile {pat text : List α} (hne : pat ≠ []) (hhead : ∀ c ∈ pat.head?, p c = false)
    (h : pat <:+: text) : pat <:+: text.dropWhile p := by
  obtain ⟨s, t, rfl⟩ := h
  obtain ⟨c, rest, rfl⟩ := List.exists_cons_of_ne_nil hne
  have hc : p c = false := hhead c rfl
  rw [List.append_assoc, List.dropWhile_append]
  split_ifs
  · rw [List.cons_append, List.dropWhile_cons_of_neg (by simp [hc])]
    exact ⟨[], t, by simp⟩
  · exact ⟨s.dropWhile p, t, by simp⟩

/-- Trimming cuts nothing off a text that begins and ends outside `p`. -/
theorem Trimmed.infix_trim_iff {pat : List α} (h : Trimmed p pat) (text : List α) :
    pat <:+: trim p text ↔ pat <:+: text := by
  constructor
  · intro hinside
    exact hinside.trans
      ((List.rdropWhile_prefix p _).isInfix.trans (List.dropWhile_suffix p).isInfix)
  · intro hinside
    have hfront := infix_dropWhile h.ne_nil h.head hinside
    rw [trim, List.rdropWhile, ← List.reverse_infix, List.reverse_reverse]
    refine infix_dropWhile (by simpa using h.ne_nil) ?_ (List.reverse_infix.mpr hfront)
    simpa using h.last

/-! ## Lines -/

variable {sep : α}

/-- The text that consists of the given lines, all terminated. -/
def joinLines (sep : α) (ls : List (List α)) : List α :=
  ls.flatMap fun line => line ++ [sep]

@[simp] theorem joinLines_nil : joinLines sep ([] : List (List α)) = [] := rfl

@[simp] theorem joinLines_cons (line : List α) (ls : List (List α)) :
    joinLines sep (line :: ls) = line ++ sep :: joinLines sep ls := by
  simp [joinLines]

@[simp] theorem joinLines_append (ls ls' : List (List α)) :
    joinLines sep (ls ++ ls') = joinLines sep ls ++ joinLines sep ls' := by
  simp [joinLines]

variable [DecidableEq α]

/-- The text up to and including the first `sep`, and what follows it. -/
def cutLine (sep : α) : List α → List α × List α
  | [] => ([], [])
  | c :: text =>
    if c = sep then ([c], text) else (c :: (cutLine sep text).1, (cutLine sep text).2)

/-- The lines of a text, each with its terminating `sep`; the last may lack it. -/
def pieces (sep : α) : List α → List (List α)
  | [] => []
  | c :: text =>
    if c = sep then [c] :: pieces sep text
    else match pieces sep text with
      | [] => [[c]]
      | piece :: rest => (c :: piece) :: rest

/-- The lines of a text without their terminators. -/
def lines (sep : α) (text : List α) : List (List α) :=
  (pieces sep text).map fun piece => piece.takeWhile fun c => !decide (c = sep)

theorem cutLine_terminated {line : List α} (h : sep ∉ line) (rest : List α) :
    cutLine sep (line ++ sep :: rest) = (line ++ [sep], rest) := by
  induction line with
  | nil => simp [cutLine]
  | cons c line ih =>
    obtain ⟨hc, hline⟩ := not_or.mp (mt List.mem_cons.mpr h)
    simp [cutLine, Ne.symm hc, ih hline]

theorem pieces_eq_nil_iff {text : List α} : pieces sep text = [] ↔ text = [] := by
  cases text with
  | nil => simp [pieces]
  | cons c text =>
    by_cases hc : c = sep
    · simp [pieces, hc]
    · cases hp : pieces sep text <;> simp [pieces, hc, hp]

theorem flatten_pieces (sep : α) (text : List α) : (pieces sep text).flatten = text := by
  induction text with
  | nil => rfl
  | cons c text ih =>
    by_cases hc : c = sep
    · simp [pieces, hc, ih]
    · cases hp : pieces sep text <;> simp_all [pieces]

theorem pieces_injective : Function.Injective (pieces sep) := fun text text' h => by
  rw [← flatten_pieces sep text, h, flatten_pieces]

/-- Cutting off the first line leaves the remaining pieces. -/
theorem pieces_of_ne_nil {text : List α} (h : text ≠ []) :
    pieces sep text = (cutLine sep text).1 :: pieces sep (cutLine sep text).2 := by
  induction text with
  | nil => exact absurd rfl h
  | cons c text ih =>
    by_cases hc : c = sep
    · simp [pieces, cutLine, hc]
    · by_cases ht : text = []
      · subst ht
        simp [pieces, cutLine, hc]
      · simp [pieces, cutLine, hc, ih ht]

theorem pieces_eq_cons {text piece : List α} {rest : List (List α)}
    (h : pieces sep text = piece :: rest) :
    (cutLine sep text).1 = piece ∧ pieces sep (cutLine sep text).2 = rest := by
  have hne : text ≠ [] := by
    rintro rfl
    simp [pieces] at h
  rw [pieces_of_ne_nil hne] at h
  exact List.cons.inj h

theorem pieces_cons_sep (text : List α) :
    pieces sep (sep :: text) = [sep] :: pieces sep text := by
  simp [pieces]

theorem pieces_cons_of_ne {c : α} {text piece : List α} {rest : List (List α)} (hc : c ≠ sep)
    (h : pieces sep text = piece :: rest) : pieces sep (c :: text) = (c :: piece) :: rest := by
  simp [pieces, hc, h]

/-- Whole lines: nothing, or a text that ends with a terminator. -/
def Closed (sep : α) (text : List α) : Prop := text = [] ∨ text.getLast? = some sep

/-- The pieces of whole lines come first. -/
theorem pieces_append {text : List α} (h : Closed sep text) (rest : List α) :
    pieces sep (text ++ rest) = pieces sep text ++ pieces sep rest := by
  induction text with
  | nil => rfl
  | cons c text ih =>
    cases text with
    | nil =>
      obtain rfl : c = sep := by simpa [Closed] using h
      simp [pieces]
    | cons d text =>
      have ih := ih (.inr (by simpa [Closed] using h))
      by_cases hc : c = sep
      · rw [hc, pieces_cons_sep, List.cons_append, pieces_cons_sep, ih, List.cons_append]
      · obtain ⟨piece, tail, htail⟩ := List.exists_cons_of_ne_nil
          (mt pieces_eq_nil_iff.mp (List.cons_ne_nil d text) : pieces sep (d :: text) ≠ [])
        have hwhole : pieces sep (d :: text ++ rest) = piece :: (tail ++ pieces sep rest) := by
          rw [ih, htail, List.cons_append]
        rw [pieces_cons_of_ne hc htail, List.cons_append, pieces_cons_of_ne hc hwhole,
          List.cons_append]

theorem pieces_joinLines {ls : List (List α)} (h : ∀ line ∈ ls, sep ∉ line) :
    pieces sep (joinLines sep ls) = ls.map fun line => line ++ [sep] := by
  induction ls with
  | nil => rfl
  | cons line ls ih =>
    rw [joinLines_cons, pieces_of_ne_nil (by simp), cutLine_terminated (h line (by simp)),
      ih fun l hl => h l (by simp [hl]), List.map_cons]

theorem takeWhile_ne_sep {line : List α} (h : sep ∉ line) (rest : List α) :
    (line ++ rest).takeWhile (fun c => !decide (c = sep)) =
      line ++ rest.takeWhile fun c => !decide (c = sep) := by
  refine List.takeWhile_append_of_pos fun c hc => ?_
  have hne : c ≠ sep := fun he => h (he ▸ hc)
  simp [hne]

theorem lines_terminated {line : List α} (h : sep ∉ line) (rest : List α) :
    lines sep (line ++ sep :: rest) = line :: lines sep rest := by
  rw [lines, pieces_of_ne_nil (by simp), cutLine_terminated h]
  simp [lines, takeWhile_ne_sep h]

theorem lines_last {line : List α} (h : sep ∉ line) (hne : line ≠ []) :
    lines sep line = [line] := by
  have hcut : ∀ {text : List α}, sep ∉ text → cutLine sep text = (text, []) := by
    intro text ht
    induction text with
    | nil => rfl
    | cons c text ih =>
      obtain ⟨hc, htext⟩ := not_or.mp (mt List.mem_cons.mpr ht)
      simp [cutLine, Ne.symm hc, ih htext]
  rw [lines, pieces_of_ne_nil hne, hcut h]
  simpa [pieces] using takeWhile_ne_sep h []

theorem lines_joinLines_append {ls : List (List α)} (h : ∀ line ∈ ls, sep ∉ line)
    (text : List α) : lines sep (joinLines sep ls ++ text) = ls ++ lines sep text := by
  induction ls with
  | nil => rfl
  | cons line ls ih =>
    rw [joinLines_cons, List.append_assoc, List.cons_append,
      lines_terminated (h line (by simp)), ih fun l hl => h l (by simp [hl]), List.cons_append]

end MadKV.Support
