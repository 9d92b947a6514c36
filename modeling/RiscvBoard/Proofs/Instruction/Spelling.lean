import RiscvBoard.Proofs.Instruction.Acceptance
import RiscvBoard.Proofs.Instruction.Written
import RiscvBoard.Proofs.Text.Spelling

/-!
# Spellings of instructions

The same instruction can be written in many ways. Registers have numbers and
names, immediates have bases and signs, an address may lack a displacement of
zero, letters may be in either case and gaps may stand around everything that is
not a token. The relations here say what may be written and nothing about how it
is read. `Operation.written` is one of the spellings.
-/

namespace RiscvBoard

/-- A register under its number or its name. Register 8 has a second name. -/
inductive Register.Spelled : Nat → List Char → Prop
  | number {n : Nat} {mark : Char} {digits : List Char} (hmark : mark = 'x' ∨ mark = 'X')
      (h : Numeral.Row 10 n digits) : Spelled n (mark :: digits)
  | name {n : Nat} {text : List Char}
      (h : Text.lower text = (Register.name n).toList) : Spelled n text
  | frame {text : List Char} (h : Text.lower text = "fp".toList) : Spelled 8 text

namespace Operand

inductive Spelled : Operand → List Char → Prop
  | register {n : Nat} {text : List Char} (h : Register.Spelled n text) : Spelled (.register n) text
  | immediate {value : Int} {text : List Char}
      (h : Numeral.Signed value text) : Spelled (.immediate value) text

/-- A displacement and its base register in parentheses. A displacement of zero may be left out. -/
inductive SpelledAddress : Operand → Operand → List Char → Prop
  | displaced {displacement base : Operand} {front gap text inside : List Char}
      (hfront : displacement.Spelled front)
      (hgap : Text.Gap gap) (htext : base.Spelled text) (hinside : Text.Amid text inside) :
      SpelledAddress displacement base (front ++ (gap ++ '(' :: (inside ++ [')'])))
  | bare {base : Operand} {text inside : List Char} (htext : base.Spelled text)
      (hinside : Text.Amid text inside) :
      SpelledAddress (.immediate 0) base ('(' :: (inside ++ [')']))

end Operand

namespace Operation

/-- The texts between the commas, without the gaps around them. Loads and stores have their address
as one text; `jalr` may have it as one or as two. -/
inductive SpelledArguments (op : Operation) : List Operand → List (List Char) → Prop
  | listed {operands : List Operand} {texts : List (List Char)}
      (hformat : op.format ≠ .load ∧ op.format ≠ .s)
      (h : List.Forall₂ Operand.Spelled operands texts) : SpelledArguments op operands texts
  | access {r displacement base : Operand} {text address : List Char}
      (hformat : op.format = .load ∨ op.format = .s)
      (hr : r.Spelled text) (h : displacement.SpelledAddress base address) :
      SpelledArguments op [r, displacement, base] [text, address]
  | jump {r displacement base : Operand} {text address : List Char} (hop : op = .jalr)
      (hr : r.Spelled text) (h : displacement.SpelledAddress base address) :
      SpelledArguments op [r, base, displacement] [text, address]

def Spelled (op : Operation) (operands : List Operand) (text : List Char) : Prop :=
  ∃ lead mnemonic gap texts pieces, text = lead ++ (mnemonic ++ (gap ++ [','].intercalate pieces)) ∧
    Text.Gap lead ∧ Text.lower mnemonic = op.mnemonic.toList ∧ Text.Gap gap ∧ gap ≠ [] ∧
    op.SpelledArguments operands texts ∧ List.Forall₂ Text.Amid texts pieces

end Operation

-- ---------------------------------------------------------------------------
-- Characters
-- ---------------------------------------------------------------------------

def isPiece (c : Char) : Bool := Numeral.isNumeric c || [' ', '\t', '(', ')'].contains c

section Characters

variable {text inner : List Char} {operand displacement base : Operand} {op : Operation}
  {operands : List Operand} {texts : List (List Char)}

theorem isPiece_of_isNumeric (h : ∀ c ∈ text, Numeral.isNumeric c = true) :
    ∀ c ∈ text, isPiece c = true :=
  fun c hc => by rw [isPiece, h c hc, Bool.true_or]

theorem isPiece_of_gap (h : Text.Gap text) : ∀ c ∈ text, isPiece c = true := by
  intro c hc
  obtain rfl | rfl := h c hc <;> decide

theorem isPiece_of_amid (h : Text.Amid inner text) (hinner : ∀ c ∈ inner, isPiece c = true) :
    ∀ c ∈ text, isPiece c = true := by
  obtain ⟨lead, trail, rfl, hlead, htrail⟩ := h
  exact List.forall_mem_append.mpr ⟨isPiece_of_gap hlead,
    List.forall_mem_append.mpr ⟨hinner, isPiece_of_gap htrail⟩⟩

theorem ne_of_isPiece {c other : Char} (h : isPiece c = true) (ho : isPiece other = false) :
    (c == other) = false :=
  beq_eq_false_iff_ne.mpr fun he => by rw [he, ho] at h; cases h

theorem isNumeric_of_toLower {c : Char} (h : isBare c.toLower = true) :
    Numeral.isNumeric c = true := by
  by_cases hupper : 'A'.val ≤ c.val ∧ c.val ≤ 'Z'.val
  · have hletter : c.isAlpha = true := Text.isAlpha_iff.mpr (.inl hupper)
    simp [Numeral.isNumeric, Char.isAlphanum, hletter]
  · have hsame : c.toLower = c := dif_neg hupper
    rw [hsame] at h
    rcases Bool.or_eq_true_iff.mp h with h | h
    · simp [Numeral.isNumeric, h]
    · simp [Numeral.isNumeric, h]

theorem isNumeric_of_lower {name : String} (hname : Bare name) (h : name.toList = Text.lower text) :
    ∀ c ∈ text, Numeral.isNumeric c = true := by
  refine fun c hc => isNumeric_of_toLower (hname.2 c.toLower ?_)
  rw [h]
  exact List.mem_map_of_mem hc

theorem bare_fp : Bare "fp" :=
  ⟨by decide, List.all_eq_true.mp (by decide : "fp".toList.all isBare = true)⟩

theorem Register.Spelled.isNumeric {n : Nat} (h : Register.Spelled n text) :
    text ≠ [] ∧ ∀ c ∈ text, Numeral.isNumeric c = true := by
  have hname : ∀ {name : String}, Bare name → Text.lower text = name.toList →
      text ≠ [] ∧ ∀ c ∈ text, Numeral.isNumeric c = true := by
    intro name hbare hlower
    refine ⟨?_, isNumeric_of_lower hbare hlower.symm⟩
    rintro rfl
    exact hbare.1 hlower.symm
  cases h with
  | number hmark h =>
    refine ⟨List.cons_ne_nil _ _, List.forall_mem_cons.mpr ⟨?_, ?_⟩⟩
    · obtain rfl | rfl := hmark <;> rfl
    · exact Numeral.isNumeric_of_isAlphanum (Numeral.isAlphanum_of_row (by decide) (by decide) h)
  | name h => exact hname (Register.bare_name n) h
  | frame h => exact hname bare_fp h

theorem Operand.Spelled.isNumeric (h : operand.Spelled text) :
    text ≠ [] ∧ ∀ c ∈ text, Numeral.isNumeric c = true := by
  cases h with
  | register h => exact h.isNumeric
  | immediate h => exact ⟨Numeral.signed_ne_nil h, Numeral.isNumeric_of_signed h⟩

theorem Operand.Spelled.tight (h : operand.Spelled text) : Text.Tight text :=
  Text.tight_of_forall fun c hc => Numeral.isBlank_of_isNumeric (h.isNumeric.2 c hc)

/-- What stays whole when an instruction is cut at its commas and trimmed. -/
structure Whole (text : List Char) : Prop where
  ne_nil : text ≠ []
  tight : Text.Tight text
  isPiece : ∀ c ∈ text, isPiece c = true

theorem Operand.Spelled.whole (h : operand.Spelled text) : Whole text :=
  ⟨h.isNumeric.1, h.tight, isPiece_of_isNumeric h.isNumeric.2⟩

theorem Operand.SpelledAddress.whole (h : displacement.SpelledAddress base text) : Whole text := by
  have hclose : Text.Tight [')'] := Text.tight_of_forall (List.forall_mem_singleton.mpr (by decide))
  have hopen : Text.Tight ['('] := Text.tight_of_forall (List.forall_mem_singleton.mpr (by decide))
  have hbehind : ∀ {text inside : List Char}, base.Spelled text → Text.Amid text inside →
      ∀ c ∈ '(' :: (inside ++ [')']), isPiece c = true := by
    intro text inside htext hinside
    exact List.forall_mem_cons.mpr ⟨rfl, List.forall_mem_append.mpr
      ⟨isPiece_of_amid hinside htext.whole.isPiece, List.forall_mem_singleton.mpr rfl⟩⟩
  cases h with
  | @displaced _ _ front gap _ inside hfront hgap htext hinside =>
    have hne := hfront.isNumeric.1
    refine ⟨List.append_ne_nil_of_left_ne_nil hne _, ?_, ?_⟩
    · have htight :=
        Text.tight_append (gap ++ '(' :: inside) hfront.tight hclose hne (List.cons_ne_nil _ _)
      rwa [List.append_assoc, List.cons_append] at htight
    · exact List.forall_mem_append.mpr ⟨hfront.whole.isPiece,
        List.forall_mem_append.mpr ⟨isPiece_of_gap hgap, hbehind htext hinside⟩⟩
  | @bare _ _ inside htext hinside =>
    refine ⟨List.cons_ne_nil _ _, ?_, hbehind htext hinside⟩
    exact Text.tight_append inside hopen hclose (List.cons_ne_nil _ _) (List.cons_ne_nil _ _)

theorem forall_mem_of_forall₂ {α β : Type} {relation : α → β → Prop} {p : β → Prop} {as : List α}
    {bs : List β}
    (hp : ∀ a b, relation a b → p b) (h : List.Forall₂ relation as bs) : ∀ b ∈ bs, p b := by
  induction h with
  | nil => nofun
  | cons hab _ ih => exact List.forall_mem_cons.mpr ⟨hp _ _ hab, ih⟩

theorem Operation.SpelledArguments.whole (h : op.SpelledArguments operands texts) :
    ∀ text ∈ texts, Whole text := by
  cases h with
  | listed _ h => exact forall_mem_of_forall₂ (fun _ _ => Operand.Spelled.whole) h
  | access _ hr h | jump _ hr h =>
    exact List.forall_mem_cons.mpr ⟨hr.whole, List.forall_mem_singleton.mpr h.whole⟩

end Characters

namespace Operation

variable {op : Operation} {operands : List Operand} {text : List Char}

theorem Spelled.isPiece (h : op.Spelled operands text) :
    ∀ c ∈ text, isPiece c = true ∨ c = ',' := by
  obtain ⟨lead, mnemonic, gap, texts, pieces, rfl, hlead, hmnemonic, hgap, -, hargs, hpieces⟩ := h
  have hall := (List.forall₂_and_left texts pieces).mpr ⟨hargs.whole, hpieces⟩
  have hamid := forall_mem_of_forall₂ (fun _ _ h => isPiece_of_amid h.2 h.1.isPiece) hall
  intro c hc
  rcases List.mem_append.mp hc with hc | hc
  · exact .inl (isPiece_of_gap hlead c hc)
  rcases List.mem_append.mp hc with hc | hc
  · exact .inl (isPiece_of_isNumeric (isNumeric_of_lower op.bare_mnemonic hmnemonic.symm) c hc)
  rcases List.mem_append.mp hc with hc | hc
  · exact .inl (isPiece_of_gap hgap c hc)
  rcases Text.mem_of_mem_intercalate hc with hc | ⟨piece, hpiece, hc⟩
  · exact .inr (List.mem_singleton.mp hc)
  · exact .inl (hamid piece hpiece c hc)

end Operation

-- ---------------------------------------------------------------------------
-- Written instructions
-- ---------------------------------------------------------------------------

theorem Register.lower_name (number : Nat) :
    Text.lower (Register.name number).toList = (Register.name number).toList := by
  have hall : ∀ n : Fin 32, Text.lower (names.get n).toList = (names.get n).toList := by
    decide +kernel
  exact hall ⟨number % 32, mod_lt number⟩

namespace Operand

theorem spelled_text (operand : Operand) : operand.Spelled operand.text.toList := by
  cases operand with
  | register number => exact .register (.name (Register.lower_name number))
  | immediate value => exact .immediate (Numeral.signed_toString value)

theorem spelledAddress_displaced (displacement base : Operand) :
    displacement.SpelledAddress base (displacement.displaced base).toList := by
  rw [toList_displaced]
  exact .displaced displacement.spelled_text Text.gap_nil base.spelled_text (Text.amid_self _)

end Operand

namespace Operation

variable {op : Operation} {operands : List Operand}

theorem spelled_listed (operands : List Operand) :
    List.Forall₂ Operand.Spelled operands ((operands.map Operand.text).map String.toList) := by
  rw [List.map_map]
  exact List.forall₂_map_right_iff.mpr (List.forall₂_same.mpr fun operand _ => operand.spelled_text)

theorem spelledArguments_arguments (h : op.Encodable operands) :
    op.SpelledArguments operands ((op.arguments operands).map String.toList) := by
  have hkinds := h.kinds
  unfold arguments
  split
  · rename_i hf
    exact .access (.inl hf) (Operand.spelled_text _) (Operand.spelledAddress_displaced _ _)
  · rename_i hf
    exact .access (.inr hf) (Operand.spelled_text _) (Operand.spelledAddress_displaced _ _)
  · rename_i hf
    split
    · rename_i hop
      exact .jump hop (Operand.spelled_text _) (Operand.spelledAddress_displaced _ _)
    · exact .listed (by simp [hf]) (spelled_listed _)
  · rename_i hload hs _
    refine .listed ⟨fun hf => ?_, fun hf => ?_⟩ (spelled_listed _)
    · obtain ⟨a, b, c, rfl, -⟩ :=
        Operand.map_kind_eq_three.mp (hkinds.trans (congrArg Format.kinds hf))
      exact hload a b c hf rfl
    · obtain ⟨a, b, c, rfl, -⟩ :=
        Operand.map_kind_eq_three.mp (hkinds.trans (congrArg Format.kinds hf))
      exact hs a b c hf rfl

theorem spelled_written (h : op.Encodable operands) :
    op.Spelled operands (op.written operands).toList := by
  obtain ⟨pieces, hpieces, hamid⟩ :=
    Text.exists_amid_intercalate ((op.arguments operands).map String.toList)
  refine ⟨[], op.mnemonic.toList, [' '], _, pieces, ?_, Text.gap_nil, op.lower_mnemonic, by decide,
    List.cons_ne_nil _ _, spelledArguments_arguments h, hamid⟩
  rw [op.toList_written h.ne_nil, hpieces]
  rfl

end Operation

end RiscvBoard
