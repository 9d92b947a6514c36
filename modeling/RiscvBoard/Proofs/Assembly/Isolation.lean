import Mathlib.Data.List.Sort
import RiscvBoard.Proofs.Assembly.Errors
import RiscvBoard.Proofs.Assembly.Place

/-!
# Mending one line

When an instruction that cannot be encoded is exchanged for one that can, its
error goes and nothing else changes: a wrong instruction takes its four bytes as
a right one does, so all labels stay where they are.
-/

namespace RiscvBoard.Assembly

/-- What an assembly has to say about the lines of its source. -/
structure Diagnosis (origin : Word) (source : String) : Prop where
  table : ∀ name addr, (collectSymbols origin source).1.find? name = some addr ↔
    ∃ j, Introduces (Text.lines source.toList) j (Text.lower name) ∧
      addr = addressAt origin (Text.lines source.toList) j
  program : (∃ program, assemble origin source = .ok program) ↔
    (∀ k label first, ¬Repeats origin (Text.lines source.toList) k label first) ∧
      ∀ k error, ¬Fails (collectSymbols origin source).1 origin (Text.lines source.toList) k error
  errors : ∀ errors, assemble origin source = .error errors → ∀ e, e ∈ errors ↔
    (∃ k label first, Repeats origin (Text.lines source.toList) k label first ∧
      e = ⟨k + 1, .duplicateLabel (String.ofList label) first⟩) ∨
    ∃ k error, Fails (collectSymbols origin source).1 origin (Text.lines source.toList) k error ∧
      e = ⟨k + 1, error⟩
  order : ∀ errors, assemble origin source = .error errors → errors.Pairwise LineError.Before
  /-- The instruction of a line can be exchanged for any that encodes there, and only its error
  goes. -/
  mended : ∀ k text statement error, (Text.lines source.toList)[k]? = some text →
    instructionOn? text = some statement →
    encodeStatement (collectSymbols origin source).1
      (addressAt origin (Text.lines source.toList) k) statement =
      .error error →
    ∃ front back, text = front ++ (statement ++ back) ∧ ∀ fixed w,
      encodeStatement (collectSymbols origin source).1
      (addressAt origin (Text.lines source.toList) k) fixed = .ok w →
      ∀ after, Text.lines after.toList =
        (Text.lines source.toList).set k (front ++ (fixed ++ back)) →
        (collectSymbols origin after).1 = (collectSymbols origin source).1 ∧
          reported (assemble origin after) =
            (reported (assemble origin source)).erase ⟨k + 1, error⟩

-- ---------------------------------------------------------------------------
-- Lines with the same labels
-- ---------------------------------------------------------------------------

/-- The lines have the same labels, and instructions at the same places. -/
structure Alike (texts others : List (List Char)) : Prop where
  labels : texts.map labelOn? = others.map labelOn?
  instructions : texts.map hasInstruction = others.map hasInstruction

section Alike

variable {texts others : List (List Char)} {origin : Word} {k : Nat} {text other : List Char}

theorem map_set_of_eq {β : Type} {f : List Char → β} (htext : texts[k]? = some text)
    (h : f other = f text) : (texts.set k other).map f = texts.map f := by
  have hk : (texts.map f)[k]? = some (f text) := by rw [List.getElem?_map, htext, Option.map_some]
  obtain ⟨hlt, hget⟩ := List.getElem?_eq_some_iff.mp hk
  rw [List.map_set, h, ← hget, List.set_getElem_self]

theorem alike_set (htext : texts[k]? = some text) (hlabel : labelOn? other = labelOn? text)
    (hinstruction : hasInstruction other = hasInstruction text) : Alike (texts.set k other) texts :=
  ⟨map_set_of_eq htext hlabel, map_set_of_eq htext hinstruction⟩

variable (h : Alike texts others)
include h

theorem Alike.labelAt?_eq (k : Nat) : labelAt? texts k = labelAt? others k := by
  have hmap : ∀ texts, labelAt? texts k = ((texts.map labelOn?)[k]?).join := fun texts => by
    rw [labelAt?, List.getElem?_map]
    cases texts[k]? <;> rfl
  rw [hmap, hmap, h.labels]

theorem Alike.addressAt_eq (origin : Word) (k : Nat) :
    addressAt origin texts k = addressAt origin others k := by
  have hcount := congrArg (fun bits => (bits.take k).countP id) h.instructions
  simp only [← List.map_take, List.countP_map, Function.id_comp] at hcount
  rw [addressAt, addressAt, hcount]

theorem Alike.introduces_iff {j : Nat} {name : List Char} :
    Introduces texts j name ↔ Introduces others j name := by
  simp only [Introduces, h.labelAt?_eq]

theorem Alike.repeats_iff {label : List Char} {first : Word} :
    Repeats origin texts k label first ↔ Repeats origin others k label first := by
  simp only [Repeats, h.labelAt?_eq, h.introduces_iff, h.addressAt_eq]

theorem Alike.labels_eq (origin : Word) :
    Assembly.labels origin texts = Assembly.labels origin others := by
  have hlabels : ∀ texts, Assembly.labels origin texts =
      (texts.map labelOn?).zipIdx.filterMap fun (label, k) =>
      label.map fun label => (Text.lower label, addressAt origin texts k) := by
    intro texts
    rw [List.zipIdx_map, List.filterMap_map]
    rfl
  rw [hlabels, hlabels, h.labels]
  simp only [h.addressAt_eq]

end Alike

theorem collectSymbols_labels (origin : Word) (source : String) : (collectSymbols origin source).1 =
    (labels origin (Text.lines source.toList)).foldl Symbols.add {} := by
  rw [collectSymbols, define_labelled, labelled_eq_labels]

-- ---------------------------------------------------------------------------
-- The errors that stay
-- ---------------------------------------------------------------------------

section Mended

variable {origin w : Word} {source after : String} {texts : List (List Char)} {k : Nat}
  {text other statement fixed : List Char} {error : Error}

instance : Std.Irrefl LineError.Before where
  irrefl e := by
    rintro (hlt | ⟨-, hlabel, hother⟩)
    · exact absurd hlt (Nat.lt_irrefl _)
    · rw [hlabel] at hother
      cases hother

instance : Std.Antisymm LineError.Before where
  antisymm a b := by
    rintro (hlt | ⟨heq, hlabel, -⟩) (hgt | ⟨heq', -, hother⟩)
    · exact absurd (hlt.trans hgt) (Nat.lt_irrefl _)
    · exact absurd (heq' ▸ hlt) (Nat.lt_irrefl _)
    · exact absurd (heq ▸ hgt) (Nat.lt_irrefl _)
    · rw [hlabel] at hother
      cases hother

theorem instructionAt?_set (htext : texts[k]? = some text) (other : List Char) (j : Nat) :
    instructionAt? (texts.set k other) j =
      if j = k then instructionOn? other else instructionAt? texts j := by
  rw [instructionAt?, instructionAt?]
  split
  · rename_i hjk
    rw [hjk, List.getElem?_set_self (List.getElem?_eq_some_iff.mp htext).1, Option.bind_some]
  · rename_i hjk
    rw [List.getElem?_set_ne (Ne.symm hjk)]

theorem fails_set {symbols : Symbols} (htext : texts[k]? = some text)
    (halike : Alike (texts.set k other) texts) (hother : instructionOn? other = some fixed)
    (hfixed : encodeStatement symbols (addressAt origin texts k) fixed = .ok w) (j : Nat)
    (cause : Error) :
    Fails symbols origin (texts.set k other) j cause ↔
      j ≠ k ∧ Fails symbols origin texts j cause := by
  rw [Fails, halike.addressAt_eq, instructionAt?_set htext, hother]
  by_cases hjk : j = k
  · simp [hjk, hfixed]
  · simp [hjk, Fails]

theorem reported_set (htext : (Text.lines source.toList)[k]? = some text)
    (hstatement : instructionOn? text = some statement)
    (hfails : encodeStatement (collectSymbols origin source).1
      (addressAt origin (Text.lines source.toList) k) statement = .error error)
    (hlabel : labelOn? other = labelOn? text) (hother : instructionOn? other = some fixed)
    (hfixed : encodeStatement (collectSymbols origin source).1
      (addressAt origin (Text.lines source.toList) k) fixed = .ok w)
    (hafter : Text.lines after.toList = (Text.lines source.toList).set k other) :
    (collectSymbols origin after).1 = (collectSymbols origin source).1 ∧
      reported (assemble origin after) =
        (reported (assemble origin source)).erase ⟨k + 1, error⟩ := by
  have halike : Alike (Text.lines after.toList) (Text.lines source.toList) := by
    rw [hafter]
    refine alike_set htext hlabel ?_
    rw [hasInstruction, hasInstruction, hother, hstatement, Option.isSome_some, Option.isSome_some]
  have htable : (collectSymbols origin after).1 = (collectSymbols origin source).1 := by
    rw [collectSymbols_labels, collectSymbols_labels, halike.labels_eq]
  -- errors in their order are determined by which ones they are
  refine ⟨htable, (pairwise_reported origin after).eq_of_mem_iff
    ((pairwise_reported origin source).sublist List.erase_sublist) fun e => ?_⟩
  rw [(pairwise_reported origin source).nodup.mem_erase_iff, mem_reported, mem_reported,
    mem_complaints, mem_complaints, htable]
  have hrepeats : ∀ j label first, Repeats origin (Text.lines after.toList) j label first ↔
      Repeats origin (Text.lines source.toList) j label first := fun _ _ _ => halike.repeats_iff
  have hfailures := fails_set htext (hafter ▸ halike) hother hfixed
  rw [← hafter] at hfailures
  simp only [hrepeats, hfailures]
  constructor
  · rintro (⟨j, label, first, hrepeat, rfl⟩ | ⟨j, cause, ⟨hj, hcause⟩, rfl⟩)
    · refine ⟨fun heq => ?_, .inl ⟨j, label, first, hrepeat, rfl⟩⟩
      rw [← (LineError.mk.inj heq).2] at hfails
      cases aboutLabel_of_encodeStatement hfails
    · exact ⟨fun heq => hj (Nat.succ.inj (LineError.mk.inj heq).1), .inr ⟨j, cause, hcause, rfl⟩⟩
  · rintro ⟨hne, hrepeat | ⟨j, cause, hcause, rfl⟩⟩
    · exact .inl hrepeat
    · refine .inr ⟨j, cause, ⟨?_, hcause⟩, rfl⟩
      rintro rfl
      obtain ⟨failing, hfailing, hencode⟩ := hcause
      rw [instructionAt?, htext, Option.bind_some, hstatement] at hfailing
      rw [← Option.some.inj hfailing, hfails] at hencode
      exact hne (congrArg _ (Except.error.inj hencode).symm)

/-- Every assembly has its errors complete, in order and independent of each other. -/
theorem diagnosis (origin : Word) (source : String) : Diagnosis origin source where
  table _ _ := find?_collectSymbols
  program := by
    rw [exists_program_iff, List.eq_nil_iff_forall_not_mem]
    simp only [mem_complaints, not_or, not_exists, not_and]
    constructor
    · intro h
      exact ⟨fun k label first hrepeat => (h _).1 k label first hrepeat rfl,
        fun k error hfails => (h _).2 k error hfails rfl⟩
    · rintro ⟨hrepeats, hfails⟩ e
      exact ⟨fun k label first hrepeat => absurd hrepeat (hrepeats k label first),
        fun k error hfail => absurd hfail (hfails k error)⟩
  errors errors h e := by
    rw [← mem_complaints, ← mem_reported, h, reported]
  order errors h := by
    have hreported := pairwise_reported origin source
    rwa [h] at hreported
  mended k text statement error htext hstatement hfails := by
    obtain ⟨front, back, hplace, hexchange⟩ := exists_place hstatement
    refine ⟨front, back, hplace, fun fixed w hfixed after hafter => ?_⟩
    obtain ⟨htrim, hne⟩ := encodeStatement_trim hfixed
    obtain ⟨hlabel, hinstruction⟩ := hexchange fixed (isSource_of_encodeStatement hfixed).1 hne
    exact reported_set htext hstatement hfails hlabel hinstruction htrim hafter

def faulty : String :=
  "loop: addi a0, a0, x\nLoop: frob\nend: beq a0, a1, done\nLOOP: jal ra, end\n"

/-- The second line is mended, wherever its instruction is found to stand. -/
theorem diagnosis_faulty : reported (assemble 0x80000000 faulty) =
      [⟨1, .invalidImmediate "x"⟩, ⟨2, .duplicateLabel "Loop" 0x80000000⟩,
        ⟨2, .unknownMnemonic "frob"⟩,
        ⟨3, .undefinedLabel "done"⟩, ⟨4, .duplicateLabel "LOOP" 0x80000000⟩] ∧
    ∃ front back, "Loop: frob".toList = front ++ ("frob".toList ++ back) ∧
      ∀ after, Text.lines after.toList =
          (Text.lines faulty.toList).set 1 (front ++ ("jal ra, end".toList ++ back)) →
        reported (assemble 0x80000000 after) =
          [⟨1, .invalidImmediate "x"⟩, ⟨2, .duplicateLabel "Loop" 0x80000000⟩,
            ⟨3, .undefinedLabel "done"⟩, ⟨4, .duplicateLabel "LOOP" 0x80000000⟩] := by
  have hcomplaints : complaints 0x80000000 faulty = [⟨2, .duplicateLabel "Loop" 0x80000000⟩,
    ⟨4, .duplicateLabel "LOOP" 0x80000000⟩, ⟨1, .invalidImmediate "x"⟩,
    ⟨2, .unknownMnemonic "frob"⟩,
    ⟨3, .undefinedLabel "done"⟩] := rfl
  have hreported : reported (assemble 0x80000000 faulty) =
      [⟨1, .invalidImmediate "x"⟩, ⟨2, .duplicateLabel "Loop" 0x80000000⟩,
        ⟨2, .unknownMnemonic "frob"⟩,
        ⟨3, .undefinedLabel "done"⟩, ⟨4, .duplicateLabel "LOOP" 0x80000000⟩] := by
    refine (pairwise_reported 0x80000000 faulty).eq_of_mem_iff ?_ fun e => ?_
    · simp [LineError.Before, Error.aboutLabel]
    · rw [mem_reported, hcomplaints]
      exact List.Perm.mem_iff (by decide)
  obtain ⟨front, back, hplace, hmended⟩ :=
    (diagnosis 0x80000000 faulty).mended 1 "Loop: frob".toList "frob".toList
    (.unknownMnemonic "frob") rfl rfl rfl
  refine ⟨hreported, front, back, hplace, fun after hafter => ?_⟩
  rw [(hmended "jal ra, end".toList 0x004000EF rfl after hafter).2, hreported]
  decide

end Mended

end RiscvBoard.Assembly
