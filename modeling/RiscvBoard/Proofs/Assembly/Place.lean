import Mathlib.Data.List.TakeWhile
import RiscvBoard.Proofs.Assembly.Characters

/-!
# Where the instruction of a line stands

The instruction of a line stands between a label or blanks and blanks or a
comment. Another instruction may be put in its place: one that can be encoded has
no character that would end it early, so the line has the same label and the
other instruction.
-/

namespace RiscvBoard

namespace Text

variable {p : Char → Bool} {c : Char} {front rest : List Char}

theorem dropWhile_append_cons (h : p c = false) :
    (front ++ c :: rest).dropWhile p = front.dropWhile p ++ c :: rest := by
  induction front with
  | nil => exact List.dropWhile_cons_of_neg (by simp [h])
  | cons d front ih =>
    cases hd : p d with
    | true =>
      rw [List.cons_append, List.dropWhile_cons_of_pos hd, List.dropWhile_cons_of_pos hd, ih]
    | false =>
      have hstop : ¬p d = true := Bool.not_eq_true _ ▸ hd
      rw [List.cons_append, List.dropWhile_cons_of_neg hstop, List.dropWhile_cons_of_neg hstop,
        List.cons_append]

/-- A trimmed text is cut where the text is, into parts that are trimmed to the same. -/
theorem exists_trim_append_cons (h : isBlank c = false) (front rest : List Char) : ∃ front' rest',
    trim (front ++ c :: rest) = front' ++ c :: rest' ∧ trim front' = trim front ∧
      trim rest' = trim rest ∧ ∀ d ∈ front', d ∈ front := by
  refine ⟨front.dropWhile isBlank, (rest.reverse.dropWhile isBlank).reverse, ?_, ?_, ?_, ?_⟩
  · unfold trim
    rw [dropWhile_append_cons h, List.reverse_append, List.reverse_cons, List.append_assoc,
      List.singleton_append, dropWhile_append_cons h, List.reverse_append, List.reverse_cons,
      List.append_assoc, List.reverse_reverse]
    rfl
  · conv => rhs; rw [← List.takeWhile_append_dropWhile (p := isBlank) (l := front)]
    rw [trim_append_left List.all_takeWhile]
  · have hrest :=
      congrArg List.reverse (List.takeWhile_append_dropWhile (p := isBlank) (l := rest.reverse))
    rw [List.reverse_append, List.reverse_reverse] at hrest
    have htrail : ((rest.reverse.takeWhile isBlank).reverse).all isBlank = true := by
      rw [List.all_reverse]
      exact List.all_takeWhile
    conv => rhs; rw [← hrest]
    rw [trim_append_of_all htrail]
  · exact fun d hd => (List.dropWhile_sublist _).mem hd

end Text

namespace Assembly

variable {text head name rest lead trail comment statement fixed : List Char} {symbols : Symbols}
  {pc w : Word}

-- ---------------------------------------------------------------------------
-- Lines with a label and lines without
-- ---------------------------------------------------------------------------

theorem ne_of_isSource {sign : Char} (hsign : isSource sign = false) (h : IsSource text) :
    ∀ c ∈ text, c ≠ sign := by
  rintro c hc rfl
  exact absurd (h c hc) (Bool.eq_false_iff.mp hsign)

theorem uncommented_append_of_isSource (h : IsSource text) (rest : List Char) :
    uncommented (text ++ rest) = text ++ uncommented rest :=
  uncommented_append_of_forall rest fun c hc =>
    ⟨ne_of_isSource (by decide) h c hc, ne_of_isSource (by decide) h c hc⟩

theorem read_of_no_colon (h : ':' ∉ uncommented text) :
    labelOn? text = none ∧ instructionOn? text = Line.present? (Text.trim (uncommented text)) := by
  have hsplit : Text.splitFirst? (· == ':') (Text.trim (uncommented text)) = none :=
    Text.splitFirst?_of_forall fun c hc => beq_eq_false_iff_ne.mpr fun heq =>
      h (heq ▸ (Text.trim_sublist _).subset hc)
  unfold labelOn? instructionOn? Line.read? Line.present?
  simp only [hsplit]
  split <;> exact ⟨rfl, rfl⟩

theorem read_of_isSource (h : IsSource text) :
    labelOn? text = none ∧ instructionOn? text = Line.present? (Text.trim text) := by
  have hcomment : uncommented text = text := uncommented_of_forall fun c hc =>
    ⟨ne_of_isSource (by decide) h c hc, ne_of_isSource (by decide) h c hc⟩
  have hcolon : ':' ∉ uncommented text := by
    rw [hcomment]
    exact fun hc => ne_of_isSource (by decide) h ':' hc rfl
  have hread := read_of_no_colon hcolon
  rwa [hcomment] at hread

/-- Behind a label with its colon stands what would stand on a line of its own, even if there is
another colon in it. -/
theorem read_of_label (hhead : Text.Pads head name) (hname : isName name = true)
    (rest : List Char) : labelOn? (head ++ ':' :: rest) = some name ∧
      instructionOn? (head ++ ':' :: rest) = Line.present? (Text.trim (uncommented rest)) := by
  have hsource : IsSource head := isSource_of_pads hhead (isSource_of_isName hname)
  have hcolon : ¬Comment (':' :: rest) := fun hc => hc.head.elim (by decide) (by decide)
  have hcomment : uncommented (head ++ ':' :: rest) = head ++ ':' :: uncommented rest := by
    rw [uncommented_append_of_isSource hsource, uncommented_cons hcolon]
  obtain ⟨front, back, htrim, hfront, hback, hmem⟩ :=
    Text.exists_trim_append_cons (by decide : Text.isBlank ':' = false) head (uncommented rest)
  have hsplit : Text.splitFirst? (· == ':') (front ++ ':' :: back) = some (front, back) :=
    splitFirst?_colon.mpr ⟨rfl, fun hc => ne_of_isSource (by decide) hsource ':' (hmem _ hc) rfl⟩
  have hne : ¬(front ++ ':' :: back).isEmpty = true := by simp
  rw [Text.pads_iff.mp hhead] at hfront
  unfold labelOn? instructionOn? Line.read?
  simp only [hcomment, htrim, if_neg hne, hsplit, hfront, hname, hback, if_true]
  exact ⟨rfl, rfl⟩

-- ---------------------------------------------------------------------------
-- Another instruction in the same place
-- ---------------------------------------------------------------------------

theorem isSource_of_all (h : text.all Text.isBlank = true) : IsSource text :=
  fun c hc => isSource_of_isBlank (List.all_eq_true.mp h c hc)

theorem uncommented_between (hlead : lead.all Text.isBlank = true) (htext : IsSource text)
    (htrail : trail.all Text.isBlank = true) (hcomment : Comment comment) :
    uncommented (lead ++ (text ++ (trail ++ comment))) = lead ++ (text ++ trail) := by
  rw [uncommented_append_of_isSource (isSource_of_all hlead), uncommented_append_of_isSource htext,
    uncommented_append_of_isSource (isSource_of_all htrail), uncommented_of_comment hcomment,
    List.append_nil]

/-- The instruction of a line can be exchanged for another one. -/
theorem exists_place (h : instructionOn? text = some statement) :
    ∃ front back, text = front ++ (statement ++ back) ∧
      ∀ fixed, IsSource fixed → Text.trim fixed ≠ [] →
        labelOn? (front ++ (fixed ++ back)) = labelOn? text ∧
        instructionOn? (front ++ (fixed ++ back)) = some (Text.trim fixed) := by
  obtain ⟨said, bare, ⟨comment, rfl, hcomment, -⟩, ⟨lead, trail, rfl, hlead, htrail, -⟩, hsays⟩ :=
    carries_iff.mpr ⟨rfl, h⟩
  generalize labelOn? _ = label at hsays ⊢
  cases hsays with
  | instruction hne hno =>
    refine ⟨lead, trail ++ comment, by simp only [List.append_assoc],
      fun fixed hfixed hpresent => ?_⟩
    have hread := uncommented_between hlead hfixed htrail hcomment
    have hcolon : ':' ∉ uncommented (lead ++ (fixed ++ (trail ++ comment))) := by
      rw [hread]
      have hsource : IsSource (lead ++ (fixed ++ trail)) := List.forall_mem_append.mpr
        ⟨isSource_of_all hlead, List.forall_mem_append.mpr ⟨hfixed, isSource_of_all htrail⟩⟩
      exact fun hc => ne_of_isSource (by decide) hsource ':' hc rfl
    obtain ⟨hlabel, hinstruction⟩ := read_of_no_colon hcolon
    rw [hread, Text.trim_between hlead htrail, present?_of_ne_nil hpresent] at hinstruction
    exact ⟨hlabel, hinstruction⟩
  | @both head name rest statement hcolon hhead hname hrest hne =>
    obtain ⟨lead', trail', rfl, hlead', htrail', -⟩ := hrest
    refine ⟨lead ++ (head ++ ':' :: lead'), trail' ++ (trail ++ comment), by
      simp only [List.append_assoc, List.cons_append], fun fixed hfixed hpresent => ?_⟩
    have hname' : Text.Pads (lead ++ head) name := by
      rw [Text.pads_iff, Text.trim_append_left hlead, Text.pads_iff.mp hhead]
    have hblanks : (trail' ++ trail).all Text.isBlank = true := by
      rw [List.all_append, htrail', htrail, Bool.and_self]
    obtain ⟨hlabel, hinstruction⟩ :=
      read_of_label hname' hname (lead' ++ (fixed ++ ((trail' ++ trail) ++ comment)))
    rw [uncommented_between hlead' hfixed hblanks hcomment, Text.trim_between hlead' hblanks,
      present?_of_ne_nil hpresent] at hinstruction
    simp only [List.append_assoc, List.cons_append] at hlabel hinstruction ⊢
    exact ⟨hlabel, hinstruction⟩

end Assembly

end RiscvBoard
