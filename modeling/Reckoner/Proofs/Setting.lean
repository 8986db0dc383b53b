import Mathlib.Data.List.Forall2
import Mathlib.Data.List.TakeWhile
import Reckoner.Registry

/-!
What switches on. Of all characters of Unicode, none but the letters of the four words themselves,
in either case, has one of these letters in its lower-case form: the Kelvin sign has a plain letter
for its lower case, and that of the capital I with a dot begins with one, but neither letter is in a
word. So a setting is on if and only if it is one of the words, in any mixture of cases, with blanks
around it.
-/

namespace Reckoner

namespace Text

/-! ### Blanks around a text -/

theorem exists_strip (outer : Char → Bool) (cs : List Char) :
    ∃ before after, cs = before ++ strip outer cs ++ after ∧ (∀ c ∈ before, outer c = true) ∧
      ∀ c ∈ after, outer c = true := by
  have htail : cs.dropWhile outer =
      strip outer cs ++ ((cs.dropWhile outer).reverse.takeWhile outer).reverse := by
    rw [strip, ← List.reverse_append, List.takeWhile_append_dropWhile, List.reverse_reverse]
  refine ⟨cs.takeWhile outer, ((cs.dropWhile outer).reverse.takeWhile outer).reverse, ?_,
    fun c => List.mem_takeWhile_imp, fun c hc => List.mem_takeWhile_imp (List.mem_reverse.1 hc)⟩
  rw [List.append_assoc, ← htail, List.takeWhile_append_dropWhile]

theorem dropWhile_append_inner {outer : Char → Bool} {before word : List Char} {c : Char}
    (hbefore : ∀ c ∈ before, outer c = true) (hc : outer c = false) :
    (before ++ c :: word).dropWhile outer = c :: word := by
  rw [List.dropWhile_append_of_pos hbefore]
  exact List.dropWhile_cons_of_neg (Bool.eq_false_iff.1 hc)

/-- Stripping finds a word between blanks. -/
theorem strip_append {outer : Char → Bool} {before word after : List Char} (hne : word ≠ [])
    (hbefore : ∀ c ∈ before, outer c = true) (hword : ∀ c ∈ word, outer c = false)
    (hafter : ∀ c ∈ after, outer c = true) : strip outer (before ++ word ++ after) = word := by
  have hfront : (before ++ word ++ after).dropWhile outer = word ++ after := by
    obtain ⟨c, rest, rfl⟩ := List.exists_cons_of_ne_nil hne
    rw [List.append_assoc]
    exact dropWhile_append_inner hbefore (hword c List.mem_cons_self)
  have hback : (word ++ after).reverse.dropWhile outer = word.reverse := by
    obtain ⟨c, rest, hrest⟩ := List.exists_cons_of_ne_nil (List.reverse_ne_nil_iff.2 hne)
    have hc : c ∈ word := List.mem_reverse.1 (hrest ▸ List.mem_cons_self)
    rw [List.reverse_append, hrest]
    exact dropWhile_append_inner (fun d hd => hafter d (List.mem_reverse.1 hd)) (hword c hc)
  rw [strip, hfront, hback, List.reverse_reverse]

/-- Only the character of code point zero stands for what is no code point. -/
theorem toNat_of_ofNat {n : Nat} {c : Char} (h : Char.ofNat n = c) (hc : 0 < c.toNat) :
    n = c.toNat := by
  rw [← h] at hc ⊢
  by_cases hvalid : n.isValidChar
  · rw [Char.ofNat, dif_pos hvalid]
    rfl
  · rw [Char.ofNat, dif_neg hvalid] at hc
    exact absurd hc (Nat.lt_irrefl 0)

/-! ### Lower-case forms -/

/-- A character as it may stand for a lower-case letter: the letter or its upper-case form. -/
def Stands (c letter : Char) : Prop := c = letter ∨ c = letter.toUpper

/-- A lower-case form of a character. A capital sigma has two, for the end of a word and for other
places. -/
def Lowers (c : Char) (form : List Char) : Prop := form = lower c ∨ c = 'Σ' ∧ form = ['ς']

/-- A lower-case form of a text, whatever forms its capital sigmas have. -/
def LowerForm (cs ls : List Char) : Prop :=
  ∃ forms, List.Forall₂ Lowers cs forms ∧ ls = forms.flatten

theorem lower_ne_nil (c : Char) : lower c ≠ [] := by
  rw [lower]
  split
  · exact List.cons_ne_nil _ _
  · split <;> exact List.cons_ne_nil _ _

theorem lowerForm_lowerCase (cs : List Char) : LowerForm cs (lowerCase cs) := by
  refine ⟨cs.map lower, ?_, rfl⟩
  rw [List.forall₂_map_right_iff]
  exact List.forall₂_same.2 fun c _ => Or.inl rfl

end Text

namespace Options

open Text

def onLetters : List Char := ['1', 't', 'r', 'u', 'e', 'y', 's', 'o', 'n']

theorem subset_onLetters : ∀ w ∈ onWords, w ⊆ onLetters := by decide

/-- What is true of the letters one after the other is true of each. -/
@[elab_as_elim]
theorem of_onLetters {p : Char → Prop} [DecidablePred p] {l : Char} (hl : l ∈ onLetters)
    (h : (onLetters.all fun m => decide (p m)) = true) : p l :=
  of_decide_eq_true (List.all_eq_true.1 h l hl)

/-- No code point but that of the upper-case form is mapped onto a letter. -/
theorem eq_toUpper_of_covers {l : Char} (hl : l ∈ onLetters) : ∀ range ∈ upperRanges,
    range.covers ((l.toNat : Int) - range.offset).toNat = true →
      ((l.toNat : Int) - range.offset).toNat = l.toUpper.toNat :=
  of_onLetters hl (by decide +kernel)

theorem lower_of_stands {c l : Char} (hl : l ∈ onLetters) (h : Stands c l) : lower c = [l] := by
  have hboth : lower l = [l] ∧ lower l.toUpper = [l] := of_onLetters hl (by decide +kernel)
  rcases h with rfl | rfl
  · exact hboth.1
  · exact hboth.2

theorem stands_of_lower {c l : Char} {rest : List Char} (hl : l ∈ onLetters)
    (h : lower c = l :: rest) : Stands c l ∧ rest = [] := by
  have hplain : l ≠ 'i' ∧ 0 < l.toNat := of_onLetters hl (by decide)
  rw [lower] at h
  split at h
  · exact absurd (List.cons.inj h).1.symm hplain.1
  · split at h
    · rename_i range hrange
      obtain ⟨hchar, rfl⟩ := List.cons.inj h
      refine ⟨Or.inr ?_, rfl⟩
      have hcovers : range.covers c.toNat = true :=
        List.find?_some (p := fun range : CaseRange => range.covers c.toNat) hrange
      have hpoint := toNat_of_ofNat hchar hplain.2
      have hn : c.toNat = ((l.toNat : Int) - range.offset).toNat := by omega
      rw [hn] at hcovers
      have hupper := eq_toUpper_of_covers hl range (List.mem_of_find?_eq_some hrange) hcovers
      exact Char.toNat_inj.1 (hn.trans hupper)
    · obtain ⟨rfl, rfl⟩ := List.cons.inj h
      exact ⟨Or.inl rfl, rfl⟩

/-! ### Words -/

theorem exists_stands {cs w : List Char} (h : List.Forall₂ Stands cs w) {c : Char} (hc : c ∈ cs) :
    ∃ l ∈ w, Stands c l := by
  induction h with
  | nil => cases hc
  | @cons d l cs w hstands hrest ih =>
      rcases List.mem_cons.1 hc with rfl | hc
      · exact ⟨l, List.mem_cons_self, hstands⟩
      · obtain ⟨m, hm, hstands⟩ := ih hc
        exact ⟨m, List.mem_cons_of_mem l hm, hstands⟩

/-- A text whose lower-case form is a word of letters is spelled like it. -/
theorem stands_of_lowers {w : List Char} (hw : w ⊆ onLetters) {cs : List Char}
    {forms : List (List Char)} (hforms : List.Forall₂ Lowers cs forms) (h : forms.flatten = w) :
    List.Forall₂ Stands cs w := by
  induction hforms generalizing w with
  | nil =>
      rw [← h]
      exact List.Forall₂.nil
  | @cons c form cs forms hform hrest ih =>
      rw [List.flatten_cons] at h
      rcases hform with rfl | ⟨_, rfl⟩
      · obtain ⟨l, rest, hlower⟩ := List.exists_cons_of_ne_nil (lower_ne_nil c)
        rw [hlower] at h
        obtain ⟨hstands, rfl⟩ := stands_of_lower (hw (h ▸ List.mem_cons_self)) hlower
        rw [← h]
        exact List.Forall₂.cons hstands (ih (fun m hm => hw (h ▸ List.mem_cons_of_mem l hm)) rfl)
      · have hsigma : 'ς' ∈ onLetters := hw (h ▸ List.mem_cons_self)
        exact absurd hsigma (by decide)

theorem flatten_of_stands {w : List Char} (hw : w ⊆ onLetters) {cs : List Char}
    {forms : List (List Char)} (hforms : List.Forall₂ Lowers cs forms)
    (h : List.Forall₂ Stands cs w) : forms.flatten = w := by
  induction hforms generalizing w with
  | nil =>
      cases h
      rfl
  | @cons c form cs forms hform hrest ih =>
      cases h with
      | @cons _ l _ w hstands hspelled =>
          have hl := hw List.mem_cons_self
          have hsigma : 'Σ' ≠ l ∧ 'Σ' ≠ l.toUpper := of_onLetters hl (by decide)
          have hform : form = [l] := by
            rcases hform with rfl | ⟨rfl, _⟩
            · exact lower_of_stands hl hstands
            · rcases hstands with heq | heq
              · exact absurd heq hsigma.1
              · exact absurd heq hsigma.2
          rw [List.flatten_cons, hform, ih (fun m hm => hw (List.mem_cons_of_mem l hm)) hspelled]
          rfl

/-- A text is a word that switches on, in any mixture of cases. -/
def Spelled (word : List Char) : Prop := ∃ w ∈ onWords, List.Forall₂ Stands word w

/-- The lower-case form of a text is a word if and only if the text is spelled like one. -/
theorem mem_onWords_iff {cs ls : List Char} (h : LowerForm cs ls) : ls ∈ onWords ↔ Spelled cs := by
  obtain ⟨forms, hforms, rfl⟩ := h
  constructor
  · intro hmem
    exact ⟨_, hmem, stands_of_lowers (subset_onLetters _ hmem) hforms rfl⟩
  · rintro ⟨w, hw, hspelled⟩
    rwa [flatten_of_stands (subset_onLetters w hw) hforms hspelled]

theorem Spelled.ne_nil {word : List Char} (h : Spelled word) : word ≠ [] := by
  obtain ⟨w, hw, hspelled⟩ := h
  have hall : ∀ w ∈ onWords, w ≠ [] := by decide
  rintro rfl
  exact hall w hw (List.forall₂_nil_left_iff.1 hspelled)

/-- A word has no blank and no character beyond ASCII in it. -/
theorem Spelled.letters {word : List Char} (h : Spelled word) {c : Char} (hc : c ∈ word) :
    isBlank c = false ∧ c.toNat < 128 ∧ ∃ l ∈ onLetters, Stands c l := by
  obtain ⟨w, hw, hspelled⟩ := h
  obtain ⟨l, hl, hstands⟩ := exists_stands hspelled hc
  have hl := subset_onLetters w hw hl
  have hboth : (isBlank l = false ∧ l.toNat < 128) ∧
      isBlank l.toUpper = false ∧ l.toUpper.toNat < 128 := of_onLetters hl (by decide)
  rcases hstands with rfl | rfl
  · exact ⟨hboth.1.1, hboth.1.2, c, hl, Or.inl rfl⟩
  · exact ⟨hboth.2.1, hboth.2.2, l, hl, Or.inr rfl⟩

theorem isOn_iff_spelled (setting : List Char) :
    isOn setting = true ↔ Spelled (strip isBlank setting) := by
  rw [isOn, List.contains_iff_mem]
  exact mem_onWords_iff (lowerForm_lowerCase _)

/-- A setting is on if and only if it is a word with blanks around it. -/
theorem isOn_iff (setting : List Char) : isOn setting = true ↔
    ∃ before word after, setting = before ++ word ++ after ∧ (∀ c ∈ before, isBlank c = true) ∧
      (∀ c ∈ after, isBlank c = true) ∧ Spelled word := by
  rw [isOn_iff_spelled]
  constructor
  · intro hspelled
    obtain ⟨before, after, hsplit, hbefore, hafter⟩ := exists_strip isBlank setting
    exact ⟨before, _, after, hsplit, hbefore, hafter, hspelled⟩
  · rintro ⟨before, word, after, rfl, hbefore, hafter, hspelled⟩
    rwa [strip_append hspelled.ne_nil hbefore (fun c hc => (hspelled.letters hc).1) hafter]

theorem joinEnabled_ofSetting (s : String) : (ofSetting (some s)).joinEnabled = isOn s.toList := by
  rw [ofSetting, Option.getD_some]

/-- **Only the four words switch joining on.** A setting does so if and only if it is one of them,
in any mixture of ASCII cases, with any blanks before and after it. So it has nothing in it but
blanks and ASCII letters of these words, and no blank between these; which form the lower case gives
to a capital sigma makes no difference. Where there is no setting it counts as the empty one, which
switches nothing on. -/
theorem joinEnabled_ofSetting_iff (s : String) :
    ((ofSetting (some s)).joinEnabled = true ↔ ∃ before word after : List Char,
      s.toList = before ++ word ++ after ∧
      (∀ c ∈ before, isBlank c = true) ∧ (∀ c ∈ after, isBlank c = true) ∧
      ∃ w ∈ ["1", "true", "yes", "on"], List.Forall₂ Stands word w.toList) ∧
    (∀ ls, LowerForm (strip isBlank s.toList) ls →
      (ls ∈ onWords ↔ (ofSetting (some s)).joinEnabled = true)) ∧
    ((ofSetting (some s)).joinEnabled = true →
      (∀ c ∈ s.toList, isBlank c = true ∨ c.toNat < 128 ∧ ∃ l ∈ onLetters, Stands c l) ∧
      ∀ c ∈ strip isBlank s.toList, isBlank c = false) ∧
    ofSetting none = ofSetting (some "") ∧ (ofSetting none).joinEnabled = false := by
  have hwords : ∀ word, (∃ w ∈ ["1", "true", "yes", "on"], List.Forall₂ Stands word w.toList) ↔
      Spelled word := by
    intro word
    have hmap : ["1", "true", "yes", "on"].map String.toList = onWords := by decide
    simp only [Spelled, ← hmap, List.mem_map, exists_exists_and_eq_and]
  simp only [hwords, joinEnabled_ofSetting]
  refine ⟨isOn_iff s.toList, fun ls hls => ?_, fun hon => ⟨fun c hc => ?_, fun c hc => ?_⟩, rfl, ?_⟩
  · exact (mem_onWords_iff hls).trans (isOn_iff_spelled _).symm
  · obtain ⟨before, word, after, hsplit, hbefore, hafter, hspelled⟩ := (isOn_iff s.toList).1 hon
    rw [hsplit, List.mem_append, List.mem_append] at hc
    rcases hc with (hc | hc) | hc
    · exact Or.inl (hbefore c hc)
    · exact Or.inr (hspelled.letters hc).2
    · exact Or.inl (hafter c hc)
  · exact (((isOn_iff_spelled _).1 hon).letters hc).1
  · decide

/-- A word in mixed cases between a no-break space and the end of a line. -/
theorem joinEnabled_ofSetting_iff_yes :
    let s := "\u00a0yEs\n"
    (ofSetting (some s)).joinEnabled = true ∧
    LowerForm (strip isBlank s.toList) ['y', 'e', 's'] ∧ ['y', 'e', 's'] ∈ onWords ∧
    ∀ c ∈ strip isBlank s.toList, isBlank c = false := by
  intro s
  obtain ⟨hiff, hforms, hletters, _⟩ := joinEnabled_ofSetting_iff s
  have hspelled : ∃ w ∈ ["1", "true", "yes", "on"], List.Forall₂ Stands ['y', 'E', 's'] w.toList :=
    ⟨"yes", by decide, .cons (Or.inl rfl) (.cons (Or.inr rfl) (.cons (Or.inl rfl) .nil))⟩
  have hon : (ofSetting (some s)).joinEnabled = true :=
    hiff.2 ⟨['\u00a0'], ['y', 'E', 's'], ['\n'], by decide, List.forall_mem_singleton.2 (by decide),
      List.forall_mem_singleton.2 (by decide), hspelled⟩
  have hform : LowerForm (strip isBlank s.toList) ['y', 'e', 's'] := by
    have hlower : lowerCase (strip isBlank s.toList) = ['y', 'e', 's'] := by decide +kernel
    rw [← hlower]
    exact lowerForm_lowerCase _
  exact ⟨hon, hform, (hforms _ hform).2 hon, (hletters hon).2⟩

/-- Letters beyond ASCII switch nothing on, whatever they look like, nor does a blank inside. -/
example : ["\u212A", "O\u039D", "o n", "Tru\u0395", "\u0130", ""].all fun s =>
    (ofSetting (some s)).joinEnabled == false := by decide +kernel

end Options

end Reckoner
