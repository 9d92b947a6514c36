import RiscvBoard.Proofs.Board.Laws

/-!
# The address map

Which addresses a configuration gives to each region, which accesses can be made
there, and which fault any other access has. The board looks at the ends of an
access only; that all bytes in between are in the same region, and that no two
regions meet, follows from the sizes that a configuration is cut down to.
-/

namespace RiscvBoard.Board

namespace Config

def span (config : Config) : Region → Nat
  | .rom => min config.romSize 0x10000000
  | .ram => min config.ramSize 0x10000000
  | .timer => 4
  | .uart => 20
  | .gpio => 8

def Covers (config : Config) (region : Region) (x : Nat) : Prop :=
  region.base ≤ x ∧ x < region.base + config.span region

instance (config : Config) (region : Region) (x : Nat) : Decidable (config.Covers region x) :=
  inferInstanceAs (Decidable (_ ∧ _))

/-- All bytes of an access have addresses, and all of them are in the region. -/
def Within (config : Config) (region : Region) (addr : Word) (width : Width) : Prop :=
  ∀ i < width.bytes, addr.toNat + i < 2 ^ 32 ∧ config.Covers region (addr.toNat + i)

instance (config : Config) (region : Region) (addr : Word) (width : Width) :
    Decidable (config.Within region addr width) :=
  inferInstanceAs (Decidable (∀ i < width.bytes, _))

def InRegister (region : Region) (addr : Word) (width : Width) : Prop :=
  ∀ i < width.bytes, (addr.toNat + i - region.base) / 4 = (addr.toNat - region.base) / 4

/-- An access that can be made: it lies in one region, and in one register if the region is a
device. -/
def Allows (config : Config) (region : Region) (addr : Word) (width : Width) : Prop :=
  config.Within region addr width ∧ (region.isDevice = true → InRegister region addr width)

inductive Refuses (config : Config) (addr : Word) (width : Width) : Fault → Prop
  | unmapped (h : ∀ region, ¬config.Covers region addr.toNat) :
      Refuses config addr width (.unmapped addr)
  | straddle (region : Region) (i : Nat) (hfirst : config.Covers region addr.toNat)
      (hi : i < width.bytes)
      (hout : ¬(addr.toNat + i < 2 ^ 32 ∧ config.Covers region (addr.toNat + i))) :
      Refuses config addr width (.straddle addr width)
  | misaligned (region : Region) (hdevice : region.isDevice = true)
      (hwithin : config.Within region addr width) (hregister : ¬InRegister region addr width) :
      Refuses config addr width (.misaligned addr width)

/-- Where programs may not write: the timer, the receive register of the UART, and the ROM if it is
protected. -/
def Protects (config : Config) (region : Region) (addr : Word) : Prop :=
  region = .timer ∨ region = .uart ∧ 0x30000010 ≤ addr.toNat ∨ region = .rom ∧
    config.romWritable = false

end Config

variable {config : Config} {board : Board} {addr value : Word} {width : Width} {region : Region}
  {off : Nat} {fault : Fault}

theorem config_ofConfig (config : Config) : (ofConfig config).config = config.clamped := by
  simp only [Board.config, ofConfig, Cells.size_zeros]
  rfl

section

variable (h : board.config = config.clamped)
include h

theorem span_eq (region : Region) : config.span region = board.sizeOf region := by
  have hrom : board.rom.size = config.clamped.romSize := congrArg Config.romSize h
  have hram : board.ram.size = config.clamped.ramSize := congrArg Config.ramSize h
  cases region with
  | rom => exact hrom.symm
  | ram => exact hram.symm
  | timer => rfl
  | uart => rfl
  | gpio => rfl

theorem covers_iff {x : Nat} :
    config.Covers region x ↔ ∃ off < board.sizeOf region, x = region.base + off := by
  rw [Config.Covers, span_eq h]
  constructor
  · rintro ⟨hl, hu⟩
    exact ⟨x - region.base, by omega, by omega⟩
  · rintro ⟨off, hoff, rfl⟩
    omega

theorem locate?_iff : board.locate? addr = some (region, off) ↔
    config.Covers region addr.toNat ∧ off = addr.toNat - region.base := by
  rw [locate?_eq_some_iff, covers_iff h]
  constructor
  · rintro ⟨hoff, haddr⟩
    exact ⟨⟨off, hoff, haddr⟩, by omega⟩
  · rintro ⟨⟨o, ho, haddr⟩, rfl⟩
    omega

theorem within_iff : config.Within region addr width ↔
    ∃ off, addr.toNat = region.base + off ∧ off + width.bytes ≤ board.sizeOf region := by
  have hpos := width.bytes_pos
  constructor
  · intro hwithin
    obtain ⟨off, -, haddr⟩ := (covers_iff h).mp (hwithin 0 hpos).2
    obtain ⟨last, hlast, heq⟩ := (covers_iff h).mp (hwithin (width.bytes - 1) (by omega)).2
    exact ⟨off, haddr, by omega⟩
  · rintro ⟨off, haddr, hsize⟩ i hi
    have hlt := (addr + BitVec.ofNat 32 i).isLt
    rw [toNat_add haddr (Nat.lt_of_lt_of_le (Nat.add_lt_add_left hi off) hsize)] at hlt
    exact ⟨by omega, (covers_iff h).mpr ⟨off + i, by omega, by omega⟩⟩

end

theorem inRegister_iff (haddr : addr.toNat = region.base + off) :
    Config.InRegister region addr width ↔ off % 4 + width.bytes ≤ 4 := by
  have hpos := width.bytes_pos
  have hle := width.bytes_le
  constructor
  · intro hregister
    have hlast := hregister (width.bytes - 1) (by omega)
    omega
  · intro hregister i hi
    omega

section

variable (h : board.config = config.clamped)
include h

theorem route_ok_iff : (∃ off, board.route addr width = .ok (region, off)) ↔
    config.Allows region addr width := by
  rw [Config.Allows, within_iff h]
  constructor
  · rintro ⟨off, hroute⟩
    obtain ⟨haddr, hsize, hregister⟩ := route_eq_ok_iff.mp hroute
    exact ⟨⟨off, haddr, hsize⟩, fun hdevice => (inRegister_iff haddr).mpr (hregister hdevice)⟩
  · rintro ⟨⟨off, haddr, hsize⟩, hregister⟩
    exact ⟨off, route_eq_ok_iff.mpr ⟨haddr, hsize,
      fun hdevice => (inRegister_iff haddr).mp (hregister hdevice)⟩⟩

theorem refuses_of_route (hroute : board.route addr width = .error fault) :
    config.Refuses addr width fault := by
  have hpos := width.bytes_pos
  unfold route at hroute
  split at hroute
  · rename_i hl
    cases hroute
    refine .unmapped fun region hcovers => ?_
    cases hl.symm.trans ((locate?_iff h).mpr ⟨hcovers, rfl⟩)
  · rename_i region off hl
    obtain ⟨hoff, haddr⟩ := locate?_eq_some_iff.mp hl
    split at hroute
    · rename_i hsize
      cases hroute
      refine .straddle region (width.bytes - 1) ((locate?_iff h).mp hl).1 (by omega) fun hlast => ?_
      obtain ⟨last, hlt, heq⟩ := (covers_iff h).mp hlast.2
      omega
    · rename_i hsize
      split at hroute
      · rename_i hregister
        cases hroute
        rw [Bool.and_eq_true, decide_eq_true_eq] at hregister
        refine .misaligned region hregister.1 ((within_iff h).mpr ⟨off, haddr, by omega⟩)
          fun hin => ?_
        exact Nat.not_le.mpr hregister.2 ((inRegister_iff haddr).mp hin)
      · cases hroute

theorem route_of_refuses (hrefuses : config.Refuses addr width fault) :
    board.route addr width = .error fault := by
  have hpos := width.bytes_pos
  cases hrefuses with
  | unmapped hnone =>
    have hl : board.locate? addr = none :=
      Option.eq_none_iff_forall_ne_some.mpr fun ⟨region, off⟩ hl =>
      hnone region ((locate?_iff h).mp hl).1
    simp only [route, hl]
  | straddle region i hfirst hi hout =>
    obtain ⟨off, hoff, haddr⟩ := (covers_iff h).mp hfirst
    have hl := locate?_eq_some_iff.mpr ⟨hoff, haddr⟩
    have hsize : board.sizeOf region < off + width.bytes := by
      refine Nat.lt_of_not_le fun hsize => hout ?_
      exact (within_iff h).mpr ⟨off, haddr, hsize⟩ i hi
    simp only [route, hl, if_pos hsize]
  | misaligned region hdevice hwithin hregister =>
    obtain ⟨off, haddr, hsize⟩ := (within_iff h).mp hwithin
    have hl : board.locate? addr = some (region, off) := locate?_eq_some_iff.mpr ⟨by omega, haddr⟩
    have hcross : 4 < off % 4 + width.bytes :=
      Nat.lt_of_not_le fun hle => hregister ((inRegister_iff haddr).mpr hle)
    simp only [route, hl, if_neg (Nat.not_lt.mpr hsize), hdevice, hcross, decide_true,
      Bool.and_self, if_true]

theorem route_error_iff : board.route addr width = .error fault ↔ config.Refuses addr width fault :=
  ⟨refuses_of_route h, route_of_refuses h⟩

end

-- ---------------------------------------------------------------------------
-- Accesses
-- ---------------------------------------------------------------------------

theorem load_eq_ok_iff {signed : Bool} :
    (∃ value, Bus.load board addr width signed = .ok value) ↔
      ∃ region off, board.route addr width = .ok (region, off) := by
  simp only [Bus.load, read_eq, map_eq_ok]
  constructor
  · rintro ⟨_, _, ⟨⟨region, off⟩, hroute, -⟩, -⟩
    exact ⟨region, off, hroute⟩
  · rintro ⟨region, off, hroute⟩
    exact ⟨_, _, ⟨(region, off), hroute, rfl⟩, rfl⟩

theorem load_eq_error_iff {signed : Bool} :
    Bus.load board addr width signed = .error fault ↔ board.route addr width = .error fault := by
  rw [Bus.load, map_eq_error, read_eq, map_eq_error]

theorem write_fst (board : Board) (addr value : Word) (width : Width) :
    (Bus.write board addr value width).1 = board.refusal? addr width := by
  simp only [Bus.write, Bus.refusal?]
  cases board.refusal? addr width with
  | none => rfl
  | some fault => rfl

theorem Config.Refuses.address (hrefuses : config.Refuses addr width fault) :
    fault.address = addr := by
  cases hrefuses <;> rfl

/-- How a board with a given configuration answers the accesses of one place. -/
structure Obeys (board : Board) (config : Config) (addr : Word) (width : Width) : Prop where
  unique : ∀ r s, config.Covers r addr.toNat → config.Covers s addr.toNat → r = s
  located : ∀ r off, board.locate? addr = some (r, off) ↔
    config.Covers r addr.toNat ∧ off = addr.toNat - r.base
  loaded : ∀ signed, (∃ value, Bus.load board addr width signed = .ok value) ↔
    ∃ r, config.Allows r addr width
  loadFault : ∀ signed fault, Bus.load board addr width signed = .error fault ↔
    config.Refuses addr width fault
  stored : ∀ value, (Bus.write board addr value width).1 = none ↔
    ∃ r, config.Allows r addr width ∧ ¬config.Protects r addr
  storeFault : ∀ value fault, (Bus.write board addr value width).1 = some fault ↔
    config.Refuses addr width fault ∨
      fault = .readOnly addr ∧ ∃ r, config.Allows r addr width ∧ config.Protects r addr
  loadAddress : ∀ signed fault, Bus.load board addr width signed = .error fault →
    fault.address = addr
  storeAddress : ∀ value fault, (Bus.write board addr value width).1 = some fault →
    fault.address = addr
  neverReadOnly : ∀ signed x, Bus.load board addr width signed ≠ .error (.readOnly x)
  loadInParts : ∀ signed, Parts.read addr width signed board.parts =
    Work.answer board.parts (Bus.load board addr width signed)
  storeInParts : ∀ value, Parts.write addr value width board.parts =
    Work.attempt ((Bus.write board addr value width).map id parts)

section

variable (h : board.config = config.clamped)
include h

theorem protects_iff (haddr : addr.toNat = region.base + off) (hoff : off < board.sizeOf region) :
    config.Protects region addr ↔ board.isWritable region off = false := by
  have hrom : board.romWritable = config.romWritable := congrArg Config.romWritable h
  unfold Config.Protects isWritable
  cases region with
  | rom => simp only [hrom, reduceCtorEq, false_and, true_and, false_or]
  | ram => simp only [reduceCtorEq, false_and, or_self]
  | timer => simp only [true_or]
  | uart =>
    change off < 20 at hoff
    change addr.toNat = 0x30000000 + off at haddr
    simp only [Uart.isWritable, reduceCtorEq, false_and, true_and, false_or, or_false,
      bne_eq_false_iff_eq]
    omega
  | gpio => simp only [reduceCtorEq, false_and, or_self]

theorem stored_iff : (Bus.write board addr value width).1 = none ↔
    ∃ r, config.Allows r addr width ∧ ¬config.Protects r addr := by
  have hpos := width.bytes_pos
  rw [write_fst, refusal?_eq_none_iff]
  simp only [← route_ok_iff h]
  constructor
  · rintro ⟨r, off, hroute, hwritable⟩
    obtain ⟨haddr, hsize, -⟩ := route_eq_ok_iff.mp hroute
    refine ⟨r, ⟨off, hroute⟩, fun hprotects => ?_⟩
    rw [(protects_iff h haddr (by omega)).mp hprotects] at hwritable
    cases hwritable
  · rintro ⟨r, ⟨off, hroute⟩, hprotects⟩
    obtain ⟨haddr, hsize, -⟩ := route_eq_ok_iff.mp hroute
    rw [protects_iff h haddr (by omega), Bool.not_eq_false] at hprotects
    exact ⟨r, off, hroute, hprotects⟩

theorem storeFault_iff : (Bus.write board addr value width).1 = some fault ↔
    config.Refuses addr width fault ∨
      fault = .readOnly addr ∧ ∃ r, config.Allows r addr width ∧ config.Protects r addr := by
  have hpos := width.bytes_pos
  rw [write_fst, refusal?_eq_some_iff, route_error_iff h]
  simp only [← route_ok_iff h]
  refine or_congr_right ⟨?_, ?_⟩
  · rintro ⟨r, off, hroute, hwritable, rfl⟩
    obtain ⟨haddr, hsize, -⟩ := route_eq_ok_iff.mp hroute
    exact ⟨rfl, r, ⟨off, hroute⟩, (protects_iff h haddr (by omega)).mpr hwritable⟩
  · rintro ⟨rfl, r, ⟨off, hroute⟩, hprotects⟩
    obtain ⟨haddr, hsize, -⟩ := route_eq_ok_iff.mp hroute
    exact ⟨r, off, hroute, (protects_iff h haddr (by omega)).mp hprotects, rfl⟩

/-- Whatever the configuration and the state of the board, its regions are disjoint, every access
that can be made is made, and every other one has the fault that its bytes call for. -/
theorem obeys_config (addr : Word) (width : Width) : board.Obeys config addr width where
  unique r s hr hs := by
    obtain ⟨o, ho, hro⟩ := (covers_iff h).mp hr
    obtain ⟨p, hp, hsp⟩ := (covers_iff h).mp hs
    exact eq_of_same_address ho hp (hro.symm.trans hsp)
  located r off := locate?_iff h
  loaded signed := load_eq_ok_iff.trans (exists_congr fun r => route_ok_iff h)
  loadFault signed fault := load_eq_error_iff.trans (route_error_iff h)
  stored value := stored_iff h
  storeFault value fault := storeFault_iff h
  loadAddress signed fault hf :=
    Config.Refuses.address ((load_eq_error_iff.trans (route_error_iff h)).mp hf)
  storeAddress value fault hf := by
    obtain hrefuses | ⟨rfl, -⟩ := (storeFault_iff h).mp hf
    · exact hrefuses.address
    · rfl
  neverReadOnly signed x hf := by cases (load_eq_error_iff.trans (route_error_iff h)).mp hf
  loadInParts := read_parts board addr width
  storeInParts value := write_parts board addr value width

end

def unevenConfig : Config := ⟨6, 0x20000000, false⟩

/-- The word at the end of the ROM can be read and not written, the one a halfword later leaves the
ROM, and the RAM ends where the timer begins. -/
theorem obeys_config_uneven :
    (ofConfig unevenConfig).config = unevenConfig.clamped ∧
      (∃ value, Bus.load (ofConfig unevenConfig) 2 .word false = .ok value) ∧
      (Bus.write (ofConfig unevenConfig) 2 0 .word).1 = some (.readOnly 2) ∧
      Bus.load (ofConfig unevenConfig) 4 .word false = .error (.straddle 4 .word) ∧
      Bus.load (ofConfig unevenConfig) 0x1FFFFFFF .half false =
        .error (.straddle 0x1FFFFFFF .half) := by
  have h := config_ofConfig unevenConfig
  have hallows : unevenConfig.Allows .rom 2 .word := ⟨by decide, nofun⟩
  exact ⟨h, ((obeys_config h 2 .word).loaded false).mpr ⟨.rom, hallows⟩,
    ((obeys_config h 2 .word).storeFault 0 _).mpr
    (.inr ⟨rfl, .rom, hallows, .inr (.inr ⟨rfl, rfl⟩)⟩),
    ((obeys_config h 4 .word).loadFault false _).mpr
      (.straddle .rom 2 (by decide) (by decide) (by decide)),
    ((obeys_config h 0x1FFFFFFF .half).loadFault false _).mpr
      (.straddle .ram 1 (by decide) (by decide) (by decide))⟩

end RiscvBoard.Board
