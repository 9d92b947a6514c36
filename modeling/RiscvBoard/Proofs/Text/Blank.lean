import Mathlib.Data.List.Flatten
import RiscvBoard.Text.Blank

/-!
# Cutting text that was put together

Trimming keeps a text without blanks at its ends, and a cut at a separator gives
back the parts that were joined there, as long as the parts do not contain it.
-/

namespace RiscvBoard.Text

variable {p : Char → Bool} {c : Char} {text inner front rest : List Char}

-- ---------------------------------------------------------------------------
-- Trimming
-- ---------------------------------------------------------------------------

def Tight (text : List Char) : Prop :=
  (∀ c ∈ text.head?, isBlank c = false) ∧ ∀ c ∈ text.getLast?, isBlank c = false

theorem dropWhile_isBlank_of_head (h : ∀ c ∈ text.head?, isBlank c = false) :
    text.dropWhile isBlank = text := by
  cases text with
  | nil => rfl
  | cons c text => exact List.dropWhile_cons_of_neg (by simp [h c rfl])

theorem trim_of_tight (h : Tight text) : trim text = text := by
  obtain ⟨hhead, hlast⟩ := h
  unfold trim
  rw [dropWhile_isBlank_of_head hhead, dropWhile_isBlank_of_head (by rwa [List.head?_reverse]),
    List.reverse_reverse]

theorem tight_of_forall (h : ∀ c ∈ text, isBlank c = false) : Tight text :=
  ⟨fun c hc => h c (List.mem_of_mem_head? hc), fun c hc => h c (List.mem_of_mem_getLast? hc)⟩

theorem tight_append (middle : List Char) (hf : Tight front) (hr : Tight rest) (hfn : front ≠ [])
    (hrn : rest ≠ []) : Tight (front ++ (middle ++ rest)) := by
  refine ⟨?_, ?_⟩
  · obtain ⟨c, front, rfl⟩ := List.exists_cons_of_ne_nil hfn
    exact hf.1
  · rw [← List.append_assoc, List.getLast?_append, List.getLast?_eq_some_getLast hrn,
      Option.some_or, ← List.getLast?_eq_some_getLast hrn]
    exact hr.2

theorem tight_intercalate {texts : List (List Char)} (separator : List Char) (hne : texts ≠ [])
    (h : ∀ text ∈ texts, Tight text ∧ text ≠ []) :
    Tight (separator.intercalate texts) ∧ separator.intercalate texts ≠ [] := by
  induction texts with
  | nil => exact absurd rfl hne
  | cons text others ih =>
    obtain ⟨ht, hn⟩ := h text List.mem_cons_self
    cases others with
    | nil =>
      rw [List.intercalate_singleton]
      exact ⟨ht, hn⟩
    | cons next others =>
      obtain ⟨hrest, hrn⟩ := ih (List.cons_ne_nil next others) fun other ho =>
        h other (List.mem_cons_of_mem text ho)
      rw [List.intercalate_cons_cons, List.append_assoc]
      exact ⟨tight_append separator ht hrest hn hrn, List.append_ne_nil_of_left_ne_nil hn _⟩

theorem mem_of_mem_intercalate {separator : List Char} {texts : List (List Char)}
    (h : c ∈ separator.intercalate texts) : c ∈ separator ∨ ∃ text ∈ texts, c ∈ text := by
  induction texts with
  | nil => cases h
  | cons text others ih =>
    cases others with
    | nil =>
      rw [List.intercalate_singleton] at h
      exact .inr ⟨text, List.mem_cons_self, h⟩
    | cons next others =>
      rw [List.intercalate_cons_cons, List.append_assoc] at h
      obtain h | h := List.mem_append.mp h
      · exact .inr ⟨text, List.mem_cons_self, h⟩
      obtain h | h := List.mem_append.mp h
      · exact .inl h
      · obtain hs | ⟨other, ho, hc⟩ := ih h
        · exact .inl hs
        · exact .inr ⟨other, List.mem_cons_of_mem text ho, hc⟩

theorem trim_cons_of_isBlank (h : isBlank c = true) : trim (c :: text) = trim text := by
  unfold trim
  rw [List.dropWhile_cons_of_pos h]

theorem dropWhile_of_all (h : text.all p = true) : text.dropWhile p = [] := by
  have hdrop : (text ++ []).dropWhile p = [] := List.dropWhile_append_of_pos (List.all_eq_true.mp h)
  rwa [List.append_nil] at hdrop

theorem dropWhile_append_of_tight (hinner : Tight inner) (hne : inner ≠ []) (rest : List Char) :
    (inner ++ rest).dropWhile isBlank = inner ++ rest := by
  obtain ⟨c, inner, rfl⟩ := List.exists_cons_of_ne_nil hne
  exact dropWhile_isBlank_of_head hinner.1

theorem Tight.reverse (h : Tight text) : Tight text.reverse :=
  ⟨by rw [List.head?_reverse]; exact h.2, by rw [List.getLast?_reverse]; exact h.1⟩

def Pads (text inner : List Char) : Prop :=
  ∃ lead trail, text = lead ++ (inner ++ trail) ∧ lead.all isBlank = true ∧
    trail.all isBlank = true ∧
    Tight inner

theorem trim_of_pads (h : Pads text inner) : trim text = inner := by
  obtain ⟨lead, trail, rfl, hlead, htrail, hinner⟩ := h
  unfold trim
  rw [List.dropWhile_append_of_pos (List.all_eq_true.mp hlead)]
  by_cases hne : inner = []
  · rw [hne, List.nil_append, dropWhile_of_all htrail]
    rfl
  · have hreverse : trail.reverse.all isBlank = true := by rwa [List.all_reverse]
    have hstop := dropWhile_append_of_tight hinner.reverse (List.reverse_ne_nil_iff.mpr hne) []
    rw [List.append_nil] at hstop
    rw [dropWhile_append_of_tight hinner hne, List.reverse_append,
      List.dropWhile_append_of_pos (List.all_eq_true.mp hreverse), hstop, List.reverse_reverse]

theorem pads_trim (text : List Char) : Pads text (trim text) := by
  have hstart := List.takeWhile_append_dropWhile (p := isBlank) (l := text)
  have hend := congrArg List.reverse
    (List.takeWhile_append_dropWhile (p := isBlank) (l := (text.dropWhile isBlank).reverse))
  rw [List.reverse_append, List.reverse_reverse, ← trim] at hend
  refine ⟨text.takeWhile isBlank, ((text.dropWhile isBlank).reverse.takeWhile isBlank).reverse, ?_,
    List.all_takeWhile, ?_, fun c hc => ?_, fun c hc => ?_⟩
  · rw [hend, hstart]
  · rw [List.all_reverse]
    exact List.all_takeWhile
  · have hhead := List.head?_dropWhile_not isBlank text
    rw [← hend, List.head?_append, hc] at hhead
    exact hhead
  · have hhead := List.head?_dropWhile_not isBlank (text.dropWhile isBlank).reverse
    rw [trim, List.getLast?_reverse] at hc
    rw [hc] at hhead
    exact hhead

theorem trim_sublist (text : List Char) : (trim text).Sublist text := by
  obtain ⟨lead, trail, htext, -⟩ := pads_trim text
  conv => rhs; rw [htext]
  exact (List.sublist_append_left _ trail).trans (List.sublist_append_right lead _)

theorem pads_iff : Pads text inner ↔ trim text = inner :=
  ⟨trim_of_pads, fun h => h ▸ pads_trim text⟩

theorem trim_append_left (h : front.all isBlank = true) : trim (front ++ text) = trim text := by
  unfold trim
  rw [List.dropWhile_append_of_pos (List.all_eq_true.mp h)]

theorem trim_append_of_all (h : rest.all isBlank = true) : trim (text ++ rest) = trim text := by
  obtain ⟨lead, trail, htext, hlead, htrail, htight⟩ := pads_trim text
  refine trim_of_pads ⟨lead, trail ++ rest, ?_, hlead, ?_, htight⟩
  · rw [← List.append_assoc, ← List.append_assoc, List.append_assoc lead, ← htext]
  · rw [List.all_append, htrail, h, Bool.and_self]

theorem trim_between (hfront : front.all isBlank = true) (hrest : rest.all isBlank = true) :
    trim (front ++ (text ++ rest)) = trim text := by
  rw [trim_append_left hfront, trim_append_of_all hrest]

theorem trim_eq_nil_iff : trim text = [] ↔ text.all isBlank = true := by
  constructor
  · intro h
    obtain ⟨lead, trail, htext, hlead, htrail, -⟩ := pads_trim text
    rw [htext, h, List.nil_append, List.all_append, hlead, htrail, Bool.and_self]
  · intro h
    have hempty : trim ([] ++ text) = trim [] := trim_append_of_all h
    exact hempty

-- ---------------------------------------------------------------------------
-- The first separator
-- ---------------------------------------------------------------------------

theorem splitFirst?_append (hfront : ∀ c ∈ front, p c = false) (hc : p c = true) :
    splitFirst? p (front ++ c :: rest) = some (front, rest) := by
  have hnot : ∀ c ∈ front, (!p c) = true := fun c h => by rw [hfront c h]; rfl
  unfold splitFirst?
  rw [List.dropWhile_append_of_pos hnot, List.takeWhile_append_of_pos hnot,
    List.dropWhile_cons_of_neg (by simp [hc]), List.takeWhile_cons_of_neg (by simp [hc])]
  simp only [List.append_nil]

theorem splitFirst?_append_of_all (hfront : front.all (!p ·) = true) (hc : p c = true) :
    splitFirst? p (front ++ c :: rest) = some (front, rest) :=
  splitFirst?_append (fun d hd => Bool.not_eq_true' (p d) ▸ List.all_eq_true.mp hfront d hd) hc

theorem splitFirst?_of_forall (h : ∀ c ∈ text, p c = false) : splitFirst? p text = none := by
  have hnot : ∀ c ∈ text, (!p c) = true := fun c hc => by rw [h c hc]; rfl
  unfold splitFirst?
  rw [dropWhile_of_all (List.all_eq_true.mpr hnot)]

theorem forall_of_splitFirst? (h : splitFirst? p text = none) : ∀ c ∈ text, p c = false := by
  have hall := List.takeWhile_append_dropWhile (p := (!p ·)) (l := text)
  unfold splitFirst? at h
  split at h
  · rename_i hdrop
    rw [hdrop, List.append_nil] at hall
    intro c hc
    rw [← hall] at hc
    simpa using List.all_eq_true.mp List.all_takeWhile c hc
  · cases h

theorem splitFirst?_eq_some_iff : splitFirst? p text = some (front, rest) ↔
    ∃ c, text = front ++ c :: rest ∧ p c = true ∧ ∀ d ∈ front, p d = false := by
  constructor
  · intro h
    have hall := List.takeWhile_append_dropWhile (p := (!p ·)) (l := text)
    have hhead := List.head?_dropWhile_not (!p ·) text
    unfold splitFirst? at h
    split at h
    · cases h
    · rename_i c _ hdrop
      obtain ⟨rfl, rfl⟩ := Prod.mk.inj (Option.some.inj h)
      rw [hdrop] at hall hhead
      refine ⟨c, hall.symm, by simpa using hhead, fun d hd => ?_⟩
      simpa using List.all_eq_true.mp List.all_takeWhile d hd
  · rintro ⟨c, rfl, hc, hfront⟩
    exact splitFirst?_append hfront hc

-- ---------------------------------------------------------------------------
-- Pieces
-- ---------------------------------------------------------------------------

theorem pieces_cons_of_sep (h : p c = true) : pieces p (c :: text) = [] :: pieces p text := by
  simp only [pieces, List.foldr_cons, h, if_true]

theorem pieces_cons_of_not_sep {piece : List Char} {others : List (List Char)} (h : p c = false)
    (ht : pieces p text = piece :: others) : pieces p (c :: text) = (c :: piece) :: others := by
  simp only [pieces] at ht
  simp only [pieces, List.foldr_cons, h, ht, Bool.false_eq_true, if_false]

theorem flatten_pieces (p : Char → Bool) (text : List Char) :
    (pieces p text).flatten = text.filter (!p ·) := by
  induction text with
  | nil => rfl
  | cons c text ih =>
    cases hc : p c with
    | true => simp [pieces_cons_of_sep hc, ih, hc]
    | false =>
      obtain ⟨piece, others, h⟩ := List.exists_cons_of_ne_nil (pieces_ne_nil p text)
      rw [h] at ih
      simp [pieces_cons_of_not_sep hc h, ← ih, hc]

theorem flatten_words (text : List Char) : (words text).flatten = text.filter (!isBlank ·) := by
  rw [words, List.flatten_filter_not_isEmpty, flatten_pieces]

/-- The text up to a separator is the first piece. -/
theorem pieces_append (hfront : ∀ c ∈ front, p c = false) (hc : p c = true) :
    pieces p (front ++ c :: rest) = front :: pieces p rest := by
  induction front with
  | nil => exact pieces_cons_of_sep hc
  | cons a front ih =>
    have ha := hfront a List.mem_cons_self
    exact pieces_cons_of_not_sep ha (ih fun b hb => hfront b (List.mem_cons_of_mem a hb))

theorem pieces_of_forall (h : ∀ c ∈ text, p c = false) : pieces p text = [text] := by
  induction text with
  | nil => rfl
  | cons a text ih =>
    have ha := h a List.mem_cons_self
    exact pieces_cons_of_not_sep ha (ih fun b hb => h b (List.mem_cons_of_mem a hb))

theorem trim_pieces_cons_of_isBlank (hc : isBlank c = true) (hp : p c = false) :
    (pieces p (c :: text)).map trim = (pieces p text).map trim := by
  obtain ⟨piece, others, h⟩ := List.exists_cons_of_ne_nil (pieces_ne_nil p text)
  rw [pieces_cons_of_not_sep hp h, h, List.map_cons, List.map_cons, trim_cons_of_isBlank hc]

theorem pieces_append_last (hc : p c = true) (hrest : ∀ d ∈ rest, p d = false) :
    pieces p (front ++ c :: rest) = pieces p front ++ [rest] := by
  induction front with
  | nil => rw [List.nil_append, pieces_cons_of_sep hc, pieces_of_forall hrest]; rfl
  | cons a front ih =>
    rw [List.cons_append]
    cases ha : p a with
    | true => rw [pieces_cons_of_sep ha, pieces_cons_of_sep ha, ih, List.cons_append]
    | false =>
      obtain ⟨piece, others, h⟩ := List.exists_cons_of_ne_nil (pieces_ne_nil p front)
      rw [h, List.cons_append] at ih
      rw [pieces_cons_of_not_sep ha h, pieces_cons_of_not_sep ha ih, List.cons_append]

theorem exists_last (p : Char → Bool) (text : List Char) : (∀ d ∈ text, p d = false) ∨
    ∃ front c rest, text = front ++ c :: rest ∧ p c = true ∧ ∀ d ∈ rest, p d = false := by
  induction text with
  | nil => exact .inl nofun
  | cons a text ih =>
    rcases ih with hnone | ⟨front, c, rest, rfl, hc, hrest⟩
    · cases ha : p a with
      | true => exact .inr ⟨[], a, text, rfl, ha, hnone⟩
      | false => exact .inl (List.forall_mem_cons.mpr ⟨ha, hnone⟩)
    · exact .inr ⟨a :: front, c, rest, rfl, hc, hrest⟩

section

variable (hp : ∀ c, isBlank c = true → p c = false)
include hp

theorem trim_pieces_lead {lead : List Char} (hlead : lead.all isBlank = true) :
    (pieces p (lead ++ text)).map trim = (pieces p text).map trim := by
  induction lead with
  | nil => rfl
  | cons c lead ih =>
    obtain ⟨hc, hlead⟩ := List.forall_mem_cons.mp (List.all_eq_true.mp hlead)
    rw [List.cons_append, trim_pieces_cons_of_isBlank hc (hp c hc), ih (List.all_eq_true.mpr hlead)]

theorem trim_pieces_trail {trail : List Char} (htrail : trail.all isBlank = true) :
    (pieces p (text ++ trail)).map trim = (pieces p text).map trim := by
  have hclear : ∀ d ∈ trail, p d = false := fun d hd => hp d (List.all_eq_true.mp htrail d hd)
  have hboth : ∀ {last : List Char}, (∀ d ∈ last, p d = false) →
      ∀ d ∈ last ++ trail, p d = false := by
    intro last hlast d hd
    exact (List.mem_append.mp hd).elim (hlast d) (hclear d)
  rcases exists_last p text with hnone | ⟨front, c, last, rfl, hc, hlast⟩
  · rw [pieces_of_forall (hboth hnone), pieces_of_forall hnone, List.map_singleton,
      List.map_singleton, trim_append_of_all htrail]
  · rw [List.append_assoc, List.cons_append, pieces_append_last hc (hboth hlast),
      pieces_append_last hc hlast, List.map_append, List.map_append, List.map_singleton,
      List.map_singleton, trim_append_of_all htrail]

theorem trim_pieces_trim (text : List Char) :
    (pieces p (trim text)).map trim = (pieces p text).map trim := by
  obtain ⟨lead, trail, htext, hlead, htrail, -⟩ := pads_trim text
  conv => rhs; rw [htext]
  rw [trim_pieces_lead hp hlead, trim_pieces_trail hp htrail]

end

-- ---------------------------------------------------------------------------
-- Words
-- ---------------------------------------------------------------------------

theorem words_cons_of_isBlank (h : isBlank c = true) : words (c :: text) = words text := by
  simp [words, pieces_cons_of_sep h]

theorem words_append_left {lead : List Char} (h : lead.all isBlank = true) :
    words (lead ++ text) = words text := by
  induction lead with
  | nil => rfl
  | cons c lead ih =>
    obtain ⟨hc, hlead⟩ := List.forall_mem_cons.mp (List.all_eq_true.mp h)
    rw [List.cons_append, words_cons_of_isBlank hc, ih (List.all_eq_true.mpr hlead)]

theorem words_append_of_all (h : rest.all isBlank = true) : words (text ++ rest) = words text := by
  induction rest generalizing text with
  | nil => rw [List.append_nil]
  | cons c rest ih =>
    obtain ⟨hc, hrest⟩ := List.forall_mem_cons.mp (List.all_eq_true.mp h)
    rw [List.append_cons, ih (List.all_eq_true.mpr hrest)]
    simp [words, pieces_append_last hc]

theorem words_trim (text : List Char) : words (trim text) = words text := by
  obtain ⟨lead, trail, htext, hlead, htrail, -⟩ := pads_trim text
  conv => rhs; rw [htext]
  rw [words_append_left hlead, words_append_of_all htrail]

-- ---------------------------------------------------------------------------
-- Lines
-- ---------------------------------------------------------------------------

theorem pieces_lines {texts : List (List Char)} (h : ∀ text ∈ texts, '\n' ∉ text) :
    pieces (· == '\n') (texts.flatMap (· ++ ['\n'])) = texts ++ [[]] := by
  induction texts with
  | nil => rfl
  | cons text texts ih =>
    have ht : ∀ c ∈ text, (c == '\n') = false := fun c hc =>
      beq_eq_false_iff_ne.mpr fun he => h text List.mem_cons_self (he ▸ hc)
    rw [List.flatMap_cons, List.append_assoc, List.singleton_append, pieces_append ht (by decide),
      ih fun other ho => h other (List.mem_cons_of_mem text ho), List.cons_append]

theorem lines_flatMap {texts : List (List Char)} (hn : ∀ text ∈ texts, '\n' ∉ text)
    (hr : ∀ text ∈ texts, '\r' ∉ text) : lines (texts.flatMap (· ++ ['\n'])) = texts := by
  have hkeep : texts.map dropReturn = texts := by
    refine (List.map_congr_left fun text ht => ?_).trans (List.map_id texts)
    exact if_neg fun hl => hr text ht (List.mem_of_getLast? hl)
  simp only [lines, pieces_lines hn, List.getLast?_concat, List.dropLast_concat, hkeep]
  exact List.append_nil texts

theorem dropReturn_sublist (line : List Char) : (dropReturn line).Sublist line := by
  unfold dropReturn
  split
  · exact List.dropLast_sublist line
  · exact .refl line

theorem flatMap_sublist {f : List Char → List Char} (h : ∀ text, (f text).Sublist text)
    (texts : List (List Char)) : (texts.flatMap f).Sublist texts.flatten := by
  rw [← List.flatMap_id]
  exact List.Sublist.flatMap_right texts fun text _ => h text

/-- The lines of a text keep the order of its characters. -/
theorem flatten_lines_sublist (text : List Char) : (lines text).flatten.Sublist text := by
  have hpieces : (pieces (· == '\n') text).flatten.Sublist text := by
    rw [flatten_pieces]
    exact List.filter_sublist
  refine List.Sublist.trans ?_ hpieces
  have hne := pieces_ne_nil (· == '\n') text
  unfold lines
  generalize pieces (· == '\n') text = all at hne
  obtain ⟨front, last, rfl⟩ : ∃ front last, all = front ++ [last] :=
    ⟨_, _, (List.dropLast_concat_getLast hne).symm⟩
  simp only [List.getLast?_concat, Option.getD_some, List.dropLast_concat, List.flatten_append,
    ← List.flatMap_def]
  refine (flatMap_sublist dropReturn_sublist front).append ?_
  split <;> simp

theorem lines_of_not_mem (hn : '\n' ∉ text) (hne : text ≠ []) : lines text = [text] := by
  have hclear : ∀ c ∈ text, (c == '\n') = false :=
    fun c hc => beq_eq_false_iff_ne.mpr fun he => hn (he ▸ hc)
  have hsome : ¬text.isEmpty = true := fun hempty => hne (List.isEmpty_iff.mp hempty)
  simp only [lines, pieces_of_forall hclear, List.getLast?_singleton, Option.getD_some,
    if_neg hsome]
  rfl

end RiscvBoard.Text
