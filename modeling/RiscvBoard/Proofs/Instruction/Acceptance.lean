import RiscvBoard.Proofs.Instruction.RoundTrip

/-!
# Which operands an encoding takes

The operands of an instruction have the number and the kinds that its format
asks for, registers that exist and an immediate that its field holds.
`encode_eq_ok_iff` says that nothing else is accepted and all of that is;
`blames_of_encode` says what is wrong with the operands when an error comes back.
-/

namespace RiscvBoard

inductive Operand.Kind
  | register
  | immediate
  deriving DecidableEq, Repr

def Operand.kind : Operand → Kind
  | .register _ => .register
  | .immediate _ => .immediate

def Format.kinds : Format → List Operand.Kind
  | .r => [.register, .register, .register]
  | .i | .shift | .b => [.register, .register, .immediate]
  | .load | .s => [.register, .immediate, .register]
  | .u | .j => [.register, .immediate]

/-- The immediates that have a field of the format. The upper immediate may be written with or
without a sign. -/
def Format.Admits : Format → Int → Prop
  | .r, _ => False
  | .i, value | .load, value | .s, value => -2048 ≤ value ∧ value ≤ 2047
  | .shift, value => 0 ≤ value ∧ value ≤ 31
  | .b, value => value % 2 = 0 ∧ -4096 ≤ value ∧ value ≤ 4094
  | .u, value => -0x80000 ≤ value ∧ value ≤ 0xFFFFF
  | .j, value => value % 2 = 0 ∧ -1048576 ≤ value ∧ value ≤ 1048574

instance (format : Format) (value : Int) : Decidable (format.Admits value) := by
  cases format <;> unfold Format.Admits <;> infer_instance

theorem Format.takes_iff {format : Format} {value : Int} (h : format ≠ .r) :
    format.Takes value ↔ format.Admits value := by
  cases format with
  | r => exact absurd rfl h
  | i | shift | load | s | b | u | j => simp [Takes, Admits, evenOnly, range?]

theorem Format.admits_iff {format : Format} {value : Int} :
    format.Admits value ↔ (format = .b ∨ format = .j → value % 2 = 0) ∧
      ∃ low high, format.range? = some (low, high) ∧ low ≤ value ∧ value ≤ high := by
  cases format <;> simp [Admits, range?, and_assoc]

section Kinds

variable {operands : List Operand} {first second third : Operand.Kind}

theorem Operand.map_kind_eq_two :
    operands.map kind = [first, second] ↔
      ∃ a b, operands = [a, b] ∧ a.kind = first ∧ b.kind = second := by
  simp only [List.map_eq_cons_iff, List.map_eq_nil_iff]
  constructor
  · rintro ⟨a, _, rfl, ha, b, _, rfl, hb, rfl⟩
    exact ⟨a, b, rfl, ha, hb⟩
  · rintro ⟨a, b, rfl, ha, hb⟩
    exact ⟨a, _, rfl, ha, b, _, rfl, hb, rfl⟩

theorem Operand.map_kind_eq_three :
    operands.map kind = [first, second, third] ↔
      ∃ a b c, operands = [a, b, c] ∧ a.kind = first ∧ b.kind = second ∧ c.kind = third := by
  rw [List.map_eq_cons_iff]
  constructor
  · rintro ⟨a, rest, rfl, ha, hrest⟩
    obtain ⟨b, c, rfl, hb, hc⟩ := map_kind_eq_two.mp hrest
    exact ⟨a, b, c, rfl, ha, hb, hc⟩
  · rintro ⟨a, b, c, rfl, ha, hb, hc⟩
    exact ⟨a, _, rfl, ha, map_kind_eq_two.mpr ⟨b, c, rfl, hb, hc⟩⟩

end Kinds

namespace Operation

def Named (op : Operation) (name : String) : Prop :=
  Text.lower name.toList = Text.lower op.mnemonic.toList

instance (op : Operation) (name : String) : Decidable (op.Named name) :=
  inferInstanceAs (Decidable (_ = _))

/-- Operands of the right number and kinds, with registers that exist. -/
structure Shaped (op : Operation) (operands : List Operand) : Prop where
  kinds : operands.map Operand.kind = op.format.kinds
  registers : ∀ number, .register number ∈ operands → number < 32

structure Encodable (op : Operation) (operands : List Operand) :
    Prop extends op.Shaped operands where
  immediates : ∀ value, .immediate value ∈ operands → op.format.Admits value

/-- The error names a fault that the operands have. An immediate is blamed only when the rest is in
order, and for its size only when it may have that parity. -/
inductive Blames (op : Operation) (operands : List Operand) : EncodeError → Prop
  | invalidRegister {number : Nat} (hmem : .register number ∈ operands) (h : 32 ≤ number) :
      Blames op operands (.invalidRegister number)
  | operandMismatch (h : operands.map Operand.kind ≠ op.format.kinds) :
      Blames op operands (.operandMismatch op)
  | misalignedOffset {value : Int} (hshaped : op.Shaped operands)
      (hmem : .immediate value ∈ operands)
      (hformat : op.format = .b ∨ op.format = .j) (hodd : value % 2 ≠ 0) :
      Blames op operands (.misalignedOffset value)
  | immediateOutOfRange {value low high : Int} (hshaped : op.Shaped operands)
      (hmem : .immediate value ∈ operands) (hrange : op.format.range? = some (low, high))
      (heven : op.format = .b ∨ op.format = .j → value % 2 = 0)
      (hout : value < low ∨ high < value) : Blames op operands (.immediateOutOfRange value low high)

variable {op : Operation} {operand : Operand} {operands : List Operand}
  {error : EncodeError} {w : Word}

-- ---------------------------------------------------------------------------
-- Names
-- ---------------------------------------------------------------------------

theorem lower_mnemonic (op : Operation) : Text.lower op.mnemonic.toList = op.mnemonic.toList := by
  have hall : ∀ op ∈ all, Text.lower op.mnemonic.toList = op.mnemonic.toList := by decide +kernel
  exact hall op op.mem_all

theorem ofMnemonic?_mnemonic (op : Operation) : ofMnemonic? op.mnemonic.toList = some op := by
  have hall : ∀ op ∈ all, ofMnemonic? op.mnemonic.toList = some op := by decide +kernel
  exact hall op op.mem_all

theorem ofMnemonic?_of_lower {name : List Char} (h : Text.lower name = op.mnemonic.toList) :
    ofMnemonic? name = some op := by
  have hfind := op.ofMnemonic?_mnemonic
  simp only [ofMnemonic?, lower_mnemonic] at hfind
  rw [ofMnemonic?, h]
  exact hfind

theorem ofMnemonic?_eq_some_iff {name : String} :
    ofMnemonic? name.toList = some op ↔ op.Named name := by
  rw [Named, lower_mnemonic]
  refine ⟨fun h => ?_, ofMnemonic?_of_lower⟩
  simp only [ofMnemonic?] at h
  have hfound := List.find?_some h
  exact (of_decide_eq_true hfound).symm

theorem encodeNamed_of_named {name : String} (h : op.Named name) :
    encodeNamed name operands = op.encode operands := by
  rw [encodeNamed, ofMnemonic?_eq_some_iff.mpr h]

theorem encodeNamed_of_unnamed {name : String} (h : ∀ op : Operation, ¬op.Named name) :
    encodeNamed name operands = .error (.unknownMnemonic name) := by
  cases hop : ofMnemonic? name.toList with
  | some op => exact absurd (ofMnemonic?_eq_some_iff.mp hop) (h op)
  | none => rw [encodeNamed, hop]

theorem encodeNamed_eq_ok {name : String} (h : encodeNamed name operands = .ok w) :
    ∃ op : Operation, op.Named name ∧ op.encode operands = .ok w := by
  unfold encodeNamed at h
  split at h
  · rename_i op hop
    exact ⟨op, ofMnemonic?_eq_some_iff.mp hop, h⟩
  · cases h

-- ---------------------------------------------------------------------------
-- The fields of operands
-- ---------------------------------------------------------------------------

theorem registerField_error :
    op.registerField operand = .error error ↔
      (∃ number ≥ 32, operand = .register number ∧ error = .invalidRegister number) ∨
        operand.kind = .immediate ∧ error = .operandMismatch op := by
  cases operand with
  | register number => simp only [registerField, Operand.kind]; grind
  | immediate value => simp only [registerField, Operand.kind]; grind

theorem immediateField_error :
    op.immediateField operand = .error error ↔
      (∃ value, operand = .immediate value ∧
        (((op.format = .b ∨ op.format = .j) ∧ value % 2 ≠ 0 ∧ error = .misalignedOffset value) ∨
          ∃ low high, op.format.range? = some (low, high) ∧
            (op.format = .b ∨ op.format = .j → value % 2 = 0) ∧ (value < low ∨ high < value) ∧
              error = .immediateOutOfRange value low high)) ∨
        operand.kind = .register ∧ error = .operandMismatch op := by
  have heven : op.format.evenOnly = true ↔ op.format = .b ∨ op.format = .j := by
    cases op.format <;> decide
  cases operand with
  | register number => simp only [immediateField, Operand.kind]; grind
  | immediate value => simp only [immediateField, Operand.kind, heven]; grind

theorem blames_of_registerField (h : op.registerField operand = .error error)
    (hmem : operand ∈ operands)
    (hkinds : operands.map Operand.kind = op.format.kinds → operand.kind = .register) :
    Blames op operands error := by
  rcases registerField_error.mp h with ⟨number, hnumber, rfl, rfl⟩ | ⟨himmediate, rfl⟩
  · exact .invalidRegister hmem hnumber
  · exact .operandMismatch fun hshape =>
      Operand.Kind.noConfusion (himmediate.symm.trans (hkinds hshape))

theorem blames_of_immediateField (h : op.immediateField operand = .error error)
    (hmem : operand ∈ operands)
    (hkinds : operands.map Operand.kind = op.format.kinds → operand.kind = .immediate)
    (hshaped : ∀ value, operand = .immediate value → op.Shaped operands) :
    Blames op operands error := by
  rcases immediateField_error.mp h with ⟨value, rfl, hvalue⟩ | ⟨hregister, rfl⟩
  · rcases hvalue with ⟨hformat, hodd, rfl⟩ | ⟨low, high, hrange, heven, hout, rfl⟩
    · exact .misalignedOffset (hshaped value rfl) hmem hformat hodd
    · exact .immediateOutOfRange (hshaped value rfl) hmem hrange heven hout
  · exact .operandMismatch fun hshape =>
      Operand.Kind.noConfusion (hregister.symm.trans (hkinds hshape))

section Pair

variable {first last : Operand} {build : BitVec 5 → Word → Word}
  (hkinds : op.format.kinds = [.register, .immediate])
include hkinds

theorem encodable_of_pair
    (h : (do return build (← op.registerField first) (← op.immediateField last)) = .ok w) :
    op.Encodable [first, last] := by
  have hformat : op.format ≠ .r := fun hr => by
    rw [hr] at hkinds
    cases hkinds
  simp only [bind_eq_ok, registerField_ok, immediateField_ok] at h
  obtain ⟨_, ⟨d, hd, rfl, -⟩, _, ⟨value, hv, rfl, -⟩, -⟩ := h
  exact ⟨⟨hkinds.symm, by simp [hd]⟩, by simp [(Format.takes_iff hformat).mp hv]⟩

theorem blames_of_pair
    (h : (do return build (← op.registerField first) (← op.immediateField last)) = .error error) :
    Blames op [first, last] error := by
  have hshape : [first, last].map Operand.kind = op.format.kinds ↔
      first.kind = .register ∧ last.kind = .immediate := by
    simp [hkinds]
  simp only [bind_eq_error, registerField_ok] at h
  rcases h with h | ⟨_, ⟨d, hd, rfl, -⟩, h | ⟨_, -, h⟩⟩
  · exact blames_of_registerField h (by simp) fun h => (hshape.mp h).1
  · refine blames_of_immediateField h (by simp) (fun h => (hshape.mp h).2) ?_
    rintro value rfl
    exact ⟨hkinds.symm, by simp [hd]⟩
  · cases h

end Pair

-- Most formats have two registers and an immediate, in one of two orders.
section Fields

variable {first second last : Operand} {build : BitVec 5 → BitVec 5 → Word → Word}
  (horder : operands.Perm [first, second, last])
  (hkinds : operands.map Operand.kind = op.format.kinds ↔
    first.kind = .register ∧ second.kind = .register ∧ last.kind = .immediate)
include horder hkinds

theorem encodable_of_fields (hformat : op.format ≠ .r)
    (h : (do
      return build (← op.registerField first) (← op.registerField second)
        (← op.immediateField last)) = .ok w) : op.Encodable operands := by
  simp only [bind_eq_ok, registerField_ok, immediateField_ok] at h
  obtain ⟨_, ⟨a, ha, rfl, -⟩, _, ⟨b, hb, rfl, -⟩, _, ⟨value, hv, rfl, -⟩, -⟩ := h
  exact ⟨⟨hkinds.mpr ⟨rfl, rfl, rfl⟩, by simp [horder.mem_iff, ha, hb]⟩,
    by simp [horder.mem_iff, (Format.takes_iff hformat).mp hv]⟩

theorem blames_of_fields
    (h : (do
      return build (← op.registerField first) (← op.registerField second)
        (← op.immediateField last)) = .error error) : Blames op operands error := by
  simp only [bind_eq_error, registerField_ok] at h
  rcases h with h | ⟨_, ⟨a, ha, rfl, -⟩, h | ⟨_, ⟨b, hb, rfl, -⟩, h | ⟨_, -, h⟩⟩⟩
  · exact blames_of_registerField h (by simp [horder.mem_iff]) fun hshape => (hkinds.mp hshape).1
  · exact blames_of_registerField h (by simp [horder.mem_iff]) fun hshape => (hkinds.mp hshape).2.1
  · refine blames_of_immediateField h (by simp [horder.mem_iff])
      (fun hshape => (hkinds.mp hshape).2.2) ?_
    rintro value rfl
    exact ⟨hkinds.mpr ⟨rfl, rfl, rfl⟩, by simp [horder.mem_iff, ha, hb]⟩
  · cases h

end Fields

-- ---------------------------------------------------------------------------
-- Accepted operands
-- ---------------------------------------------------------------------------

theorem encodable_of_encode (h : op.encode operands = .ok w) : op.Encodable operands := by
  unfold encode at h
  simp only at h
  split at h <;> rename_i hf
  · simp only [bind_eq_ok, registerField_ok] at h
    obtain ⟨_, ⟨d, hd, rfl, -⟩, _, ⟨a, ha, rfl, -⟩, _, ⟨b, hb, rfl, -⟩, -⟩ := h
    exact ⟨⟨by rw [hf]; rfl, by simp [hd, ha, hb]⟩, by simp⟩
  · exact encodable_of_fields (.refl _) (by simp [hf, Format.kinds]) (by simp [hf]) h
  · exact encodable_of_fields (.cons _ (.swap _ _ _)) (by simp [hf, Format.kinds, and_comm])
      (by simp [hf]) h
  · exact encodable_of_fields (.refl _) (by simp [hf, Format.kinds]) (by simp [hf]) h
  · exact encodable_of_fields (.cons _ (.swap _ _ _)) (by simp [hf, Format.kinds, and_comm])
      (by simp [hf]) h
  · exact encodable_of_fields (.refl _) (by simp [hf, Format.kinds]) (by simp [hf]) h
  · exact encodable_of_pair (by rw [hf]; rfl) h
  · exact encodable_of_pair (by rw [hf]; rfl) h
  · cases h

-- ---------------------------------------------------------------------------
-- Refused operands
-- ---------------------------------------------------------------------------

theorem blames_of_encode (h : op.encode operands = .error error) : Blames op operands error := by
  unfold encode at h
  simp only at h
  split at h <;> rename_i hf
  · simp only [bind_eq_error, registerField_ok] at h
    rcases h with h | ⟨_, ⟨d, hd, rfl, -⟩, h | ⟨_, ⟨a, ha, rfl, -⟩, h | ⟨_, -, h⟩⟩⟩
    · exact blames_of_registerField h (by simp) (by simp +contextual [hf, Format.kinds])
    · exact blames_of_registerField h (by simp) (by simp +contextual [hf, Format.kinds])
    · exact blames_of_registerField h (by simp) (by simp +contextual [hf, Format.kinds])
    · cases h
  · exact blames_of_fields (.refl _) (by simp [hf, Format.kinds]) h
  · exact blames_of_fields (.cons _ (.swap _ _ _)) (by simp [hf, Format.kinds, and_comm]) h
  · exact blames_of_fields (.refl _) (by simp [hf, Format.kinds]) h
  · exact blames_of_fields (.cons _ (.swap _ _ _)) (by simp [hf, Format.kinds, and_comm]) h
  · exact blames_of_fields (.refl _) (by simp [hf, Format.kinds]) h
  · exact blames_of_pair (by rw [hf]; rfl) h
  · exact blames_of_pair (by rw [hf]; rfl) h
  · -- the kinds of a format are a list for which there is a case above
    cases h
    refine .operandMismatch fun hkinds => ?_
    cases hformat : op.format <;> rw [hformat] at hkinds
    case u | j =>
      obtain ⟨a, b, rfl, -⟩ := Operand.map_kind_eq_two.mp hkinds
      simp_all
    all_goals
      obtain ⟨a, b, c, rfl, -⟩ := Operand.map_kind_eq_three.mp hkinds
      simp_all

-- ---------------------------------------------------------------------------
-- Acceptance
-- ---------------------------------------------------------------------------

theorem Shaped.ne_nil (h : op.Shaped operands) : operands ≠ [] := by
  rintro rfl
  have hkinds := h.kinds
  cases hf : op.format <;> rw [hf] at hkinds <;> cases hkinds

theorem Shaped.immediate_unique (h : op.Shaped operands) {value other : Int}
    (hvalue : .immediate value ∈ operands)
    (hother : .immediate other ∈ operands) : other = value := by
  have hkinds := h.kinds
  cases hf : op.format <;> rw [hf] at hkinds
  case u | j =>
    obtain ⟨a, b, rfl, ha, hb⟩ := Operand.map_kind_eq_two.mp hkinds
    grind [Operand.kind]
  all_goals
    obtain ⟨a, b, c, rfl, ha, hb, hc⟩ := Operand.map_kind_eq_three.mp hkinds
    grind [Operand.kind]

theorem Encodable.not_blames (h : op.Encodable operands) : ¬Blames op operands error := by
  intro hblames
  cases hblames with
  | invalidRegister hmem hnumber => exact absurd (h.registers _ hmem) (by omega)
  | operandMismatch hkinds => exact hkinds h.kinds
  | misalignedOffset _ hmem hformat hodd =>
    exact hodd ((Format.admits_iff.mp (h.immediates _ hmem)).1 hformat)
  | immediateOutOfRange _ hmem hrange _ hout =>
    obtain ⟨-, low, high, hadmits, hl, hh⟩ := Format.admits_iff.mp (h.immediates _ hmem)
    cases hrange.symm.trans hadmits
    omega

theorem encode_eq_ok_iff : (∃ w, op.encode operands = .ok w) ↔ op.Encodable operands := by
  refine ⟨fun ⟨w, hw⟩ => encodable_of_encode hw, fun h => ?_⟩
  cases hencode : op.encode operands with
  | ok w => exact ⟨w, rfl⟩
  | error error => exact absurd (blames_of_encode hencode) h.not_blames

section BadImmediate

variable {value : Int} (hshaped : op.Shaped operands) (hmem : .immediate value ∈ operands)
include hshaped hmem

theorem encode_of_bad (hbad : ¬op.format.Admits value) :
    (op.encode operands = .error (.misalignedOffset value) ∧
      (op.format = .b ∨ op.format = .j) ∧ value % 2 ≠ 0) ∨
    ∃ low high, op.encode operands = .error (.immediateOutOfRange value low high) ∧
      op.format.range? = some (low, high) ∧ (op.format = .b ∨ op.format = .j → value % 2 = 0) := by
  cases hencode : op.encode operands with
  | ok w => exact absurd ((encodable_of_encode hencode).immediates value hmem) hbad
  | error error =>
    cases blames_of_encode hencode with
    | invalidRegister hregister hnumber => exact absurd (hshaped.registers _ hregister) (by omega)
    | operandMismatch hkinds => exact absurd hshaped.kinds hkinds
    | misalignedOffset _ hother hformat hodd =>
      cases hshaped.immediate_unique hmem hother
      exact .inl ⟨rfl, hformat, hodd⟩
    | immediateOutOfRange _ hother hrange heven _ =>
      cases hshaped.immediate_unique hmem hother
      exact .inr ⟨_, _, rfl, hrange, heven⟩

theorem encode_of_odd (hformat : op.format = .b ∨ op.format = .j) (hodd : value % 2 ≠ 0) :
    op.encode operands = .error (.misalignedOffset value) := by
  have hbad : ¬op.format.Admits value := fun h => hodd ((Format.admits_iff.mp h).1 hformat)
  rcases encode_of_bad hshaped hmem hbad with ⟨herror, -⟩ | ⟨_, _, -, -, heven⟩
  · exact herror
  · exact absurd (heven hformat) hodd

theorem encode_of_out_of_range (heven : op.format = .b ∨ op.format = .j → value % 2 = 0)
    (hbad : ¬op.format.Admits value) :
    ∃ low high, op.format.range? = some (low, high) ∧
      op.encode operands = .error (.immediateOutOfRange value low high) := by
  rcases encode_of_bad hshaped hmem hbad with ⟨-, hformat, hodd⟩ | ⟨low, high, herror, hrange, -⟩
  · exact absurd (heven hformat) hodd
  · exact ⟨low, high, hrange, herror⟩

end BadImmediate

/-- An encoding is made of exactly the operands that fit an operation of that name, and decodes to
them. An error names a fault: of operands of the right kinds, with registers that exist, it is the
parity of the offset first and then the range of the immediate. -/
theorem encodeNamed_accepts_encodable (name : String) (operands : List Operand) :
    ((∃ w, encodeNamed name operands = .ok w) ↔
      ∃ op : Operation, op.Named name ∧ op.Encodable operands) ∧
    (∀ w, encodeNamed name operands = .ok w →
      ∃ i, decode w = .ok i ∧ i.op.Named name ∧ i.operands = operands.map i.op.format.normal) ∧
    ((∀ op : Operation, ¬op.Named name) →
      encodeNamed name operands = .error (.unknownMnemonic name)) ∧
    ∀ op : Operation, op.Named name →
      (∀ error, encodeNamed name operands = .error error → Blames op operands error) ∧
      (op.Shaped operands → ∀ value, .immediate value ∈ operands →
        ((op.format = .b ∨ op.format = .j) → value % 2 ≠ 0 →
          encodeNamed name operands = .error (.misalignedOffset value)) ∧
        ((op.format = .b ∨ op.format = .j → value % 2 = 0) → ¬op.format.Admits value →
          ∃ low high, op.format.range? = some (low, high) ∧
            encodeNamed name operands = .error (.immediateOutOfRange value low high))) := by
  refine ⟨⟨fun ⟨w, hw⟩ => ?_, fun ⟨op, hname, h⟩ => ?_⟩, fun w hw => ?_, encodeNamed_of_unnamed,
    fun op hname => ?_⟩
  · obtain ⟨op, hname, hencode⟩ := encodeNamed_eq_ok hw
    exact ⟨op, hname, encodable_of_encode hencode⟩
  · rw [encodeNamed_of_named hname]
    exact encode_eq_ok_iff.mpr h
  · obtain ⟨op, hname, hencode⟩ := encodeNamed_eq_ok hw
    obtain ⟨i, hi, rfl, hoperands⟩ := decode_of_encode hencode
    exact ⟨i, hi, hname, hoperands⟩
  · rw [encodeNamed_of_named hname]
    exact ⟨fun error => blames_of_encode, fun hshaped value hmem =>
      ⟨encode_of_odd hshaped hmem, encode_of_out_of_range hshaped hmem⟩⟩

/-- An accepted immediate at the edge of its range, an odd offset out of range, an even one, and a
name that is in no row. -/
theorem encodeNamed_accepts_encodable_edges :
    (∃ w, encodeNamed "AddI" [.register 1, .register 31, .immediate 2047] = .ok w) ∧
    encodeNamed "bNe" [.register 1, .register 2, .immediate 4097] =
      .error (.misalignedOffset 4097) ∧
    (∃ low high, Format.range? .b = some (low, high) ∧
      encodeNamed "bNe" [.register 1, .register 2, .immediate 4096] =
        .error (.immediateOutOfRange 4096 low high)) ∧
    encodeNamed "mov" [.register 1, .register 2] = .error (.unknownMnemonic "mov") := by
  have hshaped : ∀ value, bne.Shaped [.register 1, .register 2, .immediate value] := fun value =>
    ⟨rfl, by simp⟩
  have hnone : ofMnemonic? "mov".toList = none := by decide
  have hunnamed : ∀ op : Operation, ¬op.Named "mov" := fun op hop => by
    rw [ofMnemonic?_eq_some_iff.mpr hop] at hnone
    cases hnone
  have haddi : addi.Encodable [.register 1, .register 31, .immediate 2047] :=
    ⟨⟨rfl, by simp⟩, by simpa using (by decide : addi.format.Admits 2047)⟩
  have hbne : bne.Named "bNe" := by decide
  have hodd :=
    ((encodeNamed_accepts_encodable "bNe" _).2.2.2 bne hbne).2 (hshaped 4097) 4097 (by simp)
  have hlarge :=
    ((encodeNamed_accepts_encodable "bNe" _).2.2.2 bne hbne).2 (hshaped 4096) 4096 (by simp)
  exact ⟨(encodeNamed_accepts_encodable "AddI" _).1.mpr ⟨addi, by decide, haddi⟩,
    hodd.1 (.inl rfl) (by decide), hlarge.2 (fun _ => rfl) (by decide),
    (encodeNamed_accepts_encodable "mov" _).2.2.1 hunnamed⟩

end Operation

end RiscvBoard
