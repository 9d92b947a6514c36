import RiscvBoard.Board.Basic
import RiscvBoard.Proofs.Bytes

/-!
# Where addresses lie

The regions are disjoint, whatever the sizes of the memories, so an address lies
in at most one of them. All of them end well below the last address, so an
offset within a region never wraps around.
-/

namespace RiscvBoard.Board

variable {board : Board} {addr : Word} {width : Width} {region : Region} {off : Nat}

theorem sizeOf_le (board : Board) (region : Region) : board.sizeOf region ≤ Region.maxMemory := by
  cases region with
  | rom => exact board.rom_le
  | ram => exact board.ram_le
  | timer => show Timer.size ≤ _; decide
  | uart => show Uart.size ≤ _; decide
  | gpio => show Gpio.size ≤ _; decide

theorem eq_of_same_address {r s : Region} {o p : Nat} (hr : o < board.sizeOf r)
    (hs : p < board.sizeOf s) (h : r.base + o = s.base + p) : r = s := by
  have hro := Nat.lt_of_lt_of_le hr (board.sizeOf_le r)
  have hsp := Nat.lt_of_lt_of_le hs (board.sizeOf_le s)
  cases r <;> cases s <;> simp only [Region.base, Region.maxMemory] at h hro hsp <;>
    first | rfl | omega

theorem holds_iff : board.holds region addr = true ↔
    ∃ off < board.sizeOf region, addr.toNat = region.base + off := by
  simp only [holds, Bool.and_eq_true, decide_eq_true_eq]
  constructor
  · rintro ⟨hl, hu⟩
    exact ⟨addr.toNat - region.base, by omega, by omega⟩
  · rintro ⟨off, hoff, haddr⟩
    omega

theorem locate?_eq_some_iff : board.locate? addr = some (region, off) ↔
    off < board.sizeOf region ∧ addr.toNat = region.base + off := by
  constructor
  · intro h
    obtain ⟨found, hfound, heq⟩ := Option.map_eq_some_iff.mp h
    cases heq
    have hholds : board.holds region addr = true :=
      List.find?_some (p := fun region => board.holds region addr) hfound
    obtain ⟨o, ho, haddr⟩ := holds_iff.mp hholds
    rw [haddr, Nat.add_sub_cancel_left]
    exact ⟨ho, rfl⟩
  · rintro ⟨hoff, haddr⟩
    have hholds : board.holds region addr = true := holds_iff.mpr ⟨off, hoff, haddr⟩
    cases hfind : Region.all.find? fun region => board.holds region addr with
    | none =>
      have hmem : region ∈ Region.all := by cases region <;> decide
      exact absurd hholds (List.find?_eq_none.mp hfind region hmem)
    | some found =>
      have hfound : board.holds found addr = true :=
        List.find?_some (p := fun region => board.holds region addr) hfind
      obtain ⟨o, ho, hbase⟩ := holds_iff.mp hfound
      obtain rfl : found = region := eq_of_same_address ho hoff (hbase.symm.trans haddr)
      rw [locate?, hfind, Option.map_some, haddr, Nat.add_sub_cancel_left]

theorem route_eq_ok_iff : board.route addr width = .ok (region, off) ↔
    addr.toNat = region.base + off ∧ off + width.bytes ≤ board.sizeOf region ∧
      (region.isDevice = true → off % 4 + width.bytes ≤ 4) := by
  have hpos := width.bytes_pos
  unfold route
  constructor
  · intro h
    split at h
    · cases h
    · rename_i r o hl
      split at h
      · cases h
      split at h
      · cases h
      · rename_i hsize hregister
        cases h
        simp only [Bool.and_eq_true, decide_eq_true_eq, not_and, Nat.not_lt] at hregister hsize
        exact ⟨(locate?_eq_some_iff.mp hl).2, hsize, hregister⟩
  · rintro ⟨haddr, hsize, hregister⟩
    have hl : board.locate? addr = some (region, off) := locate?_eq_some_iff.mpr ⟨by omega, haddr⟩
    have hin : ¬(region.isDevice && decide (4 < off % 4 + width.bytes)) = true := by
      simp only [Bool.and_eq_true, decide_eq_true_eq, not_and, Nat.not_lt]
      exact hregister
    simp only [hl, if_neg (Nat.not_lt.mpr hsize), if_neg hin]

theorem locate?_of_route (h : board.route addr width = .ok (region, off)) :
    board.locate? addr = some (region, off) := by
  obtain ⟨haddr, hsize, -⟩ := route_eq_ok_iff.mp h
  have hpos := width.bytes_pos
  exact locate?_eq_some_iff.mpr ⟨by omega, haddr⟩

theorem toNat_add_of_lt {k : Nat} (h : addr.toNat + k < 2 ^ 32) :
    (addr + BitVec.ofNat 32 k).toNat = addr.toNat + k := by
  rw [BitVec.toNat_add, BitVec.toNat_ofNat]
  omega

theorem toNat_add {k : Nat} (haddr : addr.toNat = region.base + off)
    (hk : off + k < board.sizeOf region) :
    (addr + BitVec.ofNat 32 k).toNat = region.base + (off + k) := by
  have hsize := board.sizeOf_le region
  have hbase : region.base ≤ 0x40000000 := by cases region <;> decide
  simp only [Region.maxMemory] at hsize
  rw [toNat_add_of_lt (by omega), haddr, Nat.add_assoc]

theorem locate?_add {k : Nat} (haddr : addr.toNat = region.base + off)
    (hk : off + k < board.sizeOf region) :
    board.locate? (addr + BitVec.ofNat 32 k) = some (region, off + k) :=
  locate?_eq_some_iff.mpr ⟨hk, toNat_add haddr hk⟩

end RiscvBoard.Board
