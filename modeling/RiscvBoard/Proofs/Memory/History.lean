import RiscvBoard.Proofs.Memory.Access
import RiscvBoard.Proofs.Result

/-!
# What was written last

Plain memory has a byte at each address of its range, and the range may reach
past the last 32-bit address. Ranges are compared as numbers without bound: an
access that does not begin in the memory is unmapped, one that begins there and
ends outside straddles the end, and every other one is made. After any attempts
to write, a read gives for each byte what was written there last.
-/

namespace RiscvBoard.Memory

variable {m : Memory} {addr value : Word} {width : Width} {fault : Fault} {x : Nat}

-- ---------------------------------------------------------------------------
-- Ranges
-- ---------------------------------------------------------------------------

def Has (m : Memory) (addr : Word) (width : Width) : Prop :=
  m.base.toNat ≤ addr.toNat ∧ addr.toNat + width.bytes ≤ m.base.toNat + m.size

instance : Decidable (m.Has addr width) := inferInstanceAs (Decidable (_ ∧ _))

inductive Refuses (m : Memory) (addr : Word) (width : Width) : Fault → Prop
  | unmapped (h : addr.toNat < m.base.toNat ∨ m.base.toNat + m.size ≤ addr.toNat) :
    Refuses m addr width (.unmapped addr)
  | straddle (hfirst : m.base.toNat ≤ addr.toNat ∧ addr.toNat < m.base.toNat + m.size)
    (hlast : m.base.toNat + m.size < addr.toNat + width.bytes) :
    Refuses m addr width (.straddle addr width)

theorem contains_iff : m.contains addr = true ↔
    m.base.toNat ≤ addr.toNat ∧ addr.toNat < m.base.toNat + m.size := by
  simp only [contains, Bool.and_eq_true, decide_eq_true_eq]
  rfl

theorem fault?_eq_none_iff : m.fault? addr width = none ↔ m.Has addr width := by
  constructor
  · intro h
    unfold fault? at h
    split at h
    · rename_i hin
      split at h
      · rename_i hlast
        exact ⟨(contains_iff.mp hin).1, hlast⟩
      · cases h
    · cases h
  · rintro ⟨hfirst, hlast⟩
    have haddr : addr.toNat = m.base.toNat + (addr.toNat - m.base.toNat) := by omega
    exact fault?_eq_none haddr (by omega)

theorem fault?_eq_some_iff : m.fault? addr width = some fault ↔ m.Refuses addr width fault := by
  unfold fault?
  constructor
  · intro h
    split at h
    · rename_i hin
      split at h <;> cases h
      rename_i hlast
      exact .straddle (contains_iff.mp hin) (Nat.lt_of_not_le hlast)
    · rename_i hout
      cases h
      rw [contains_iff] at hout
      exact .unmapped (by omega)
  · intro h
    cases h with
    | unmapped hout =>
      refine if_neg fun hin => ?_
      have hrange := contains_iff.mp hin
      omega
    | straddle hfirst hlast =>
      rw [if_pos (contains_iff.mpr hfirst)]
      exact if_neg (Nat.not_le.mpr hlast)

theorem refuses_of_not_has (h : ¬m.Has addr width) : ∃ fault, m.Refuses addr width fault := by
  obtain ⟨fault, hfault⟩ :=
    Option.ne_none_iff_exists'.mp fun hnone => h (fault?_eq_none_iff.mp hnone)
  exact ⟨fault, fault?_eq_some_iff.mp hfault⟩

theorem Refuses.not_has (h : m.Refuses addr width fault) : ¬m.Has addr width := by
  intro hhas
  rw [← fault?_eq_some_iff, fault?_eq_none_iff.mpr hhas] at h
  cases h

theorem base_add_offset (h : m.Has addr width) : m.base.toNat + m.offset addr = addr.toNat :=
  Nat.add_sub_cancel' h.1

theorem Has.inside (h : m.Has addr width) : m.offset addr + width.bytes ≤ m.size :=
  offset_add_le (fault?_eq_none_iff.mpr h)

-- ---------------------------------------------------------------------------
-- Bytes
-- ---------------------------------------------------------------------------

def byte? (m : Memory) (x : Nat) : Option Byte :=
  if m.base.toNat ≤ x then m.cells[x - m.base.toNat]? else none

theorem byte?_add (m : Memory) {i : Nat} (h : i < m.size) :
    m.byte? (m.base.toNat + i) = some (m.cells.get i) := by
  rw [byte?, if_pos (Nat.le_add_right ..), Nat.add_sub_cancel_left, Cells.getElem?_eq_get h]

theorem byte?_of_outside (h : x < m.base.toNat ∨ m.base.toNat + m.size ≤ x) : m.byte? x = none := by
  unfold byte?
  split
  · refine Array.getElem?_eq_none ?_
    change m.size ≤ _
    omega
  · rfl

theorem ext_byte? {a b : Memory} (hbase : a.base = b.base) (hsize : a.size = b.size)
    (h : ∀ x, a.byte? x = b.byte? x) : a = b := by
  obtain ⟨base, cells⟩ := a
  obtain rfl : base = b.base := hbase
  refine congrArg (Memory.mk b.base) (Array.ext_getElem? fun i => ?_)
  have hbyte := h (b.base.toNat + i)
  simpa only [byte?, Nat.le_add_right, if_true, Nat.add_sub_cancel_left] using hbyte

theorem read_of_has (h : m.Has addr width) :
    Bus.read m addr width = .ok (m.cells.load (m.offset addr) width) := by
  simp only [Bus.read, fault?_eq_none_iff.mpr h]

theorem load_eq_error_iff {signed : Bool} :
    Bus.load m addr width signed = .error fault ↔ m.Refuses addr width fault := by
  rw [Bus.load, map_eq_error, ← fault?_eq_some_iff]
  simp only [Bus.read]
  cases m.fault? addr width <;> simp

theorem load_eq_ok_iff {signed : Bool} : Bus.load m addr width signed = .ok value ↔
    m.Has addr width ∧ ∃ b : Nat → Byte,
      (∀ i < width.bytes, m.byte? (addr.toNat + i) = some (b i)) ∧
      value =
        BitVec.ofInt 32 (if signed then (littleEndian b 0 width.bytes : Int).bmod (2 ^ width.bits)
        else littleEndian b 0 width.bytes) := by
  by_cases h : m.Has addr width
  · have hin := h.inside
    have hfound : ∀ i < width.bytes, m.byte? (addr.toNat + i) =
        some (m.cells.get (m.offset addr + i)) := by
      intro i hi
      rw [← base_add_offset h, Nat.add_assoc, m.byte?_add (by omega)]
    have hload : ∀ b : Nat → Byte, (∀ i < width.bytes, m.byte? (addr.toNat + i) = some (b i)) →
        m.cells.load (m.offset addr) width = Word.ofBytes b 0 width := by
      intro b hb
      refine Word.ofBytes_shift fun i hi => Option.some.inj ?_
      rw [← hfound i hi, hb i hi, Nat.zero_add]
    rw [Bus.load, read_of_has h]
    simp only [h, true_and, Except.map, Except.ok.injEq]
    constructor
    · rintro rfl
      exact ⟨_, hfound, by rw [hload _ hfound, Word.extend_ofBytes]⟩
    · rintro ⟨b, hb, rfl⟩
      rw [hload b hb, Word.extend_ofBytes]
  · obtain ⟨fault, hfault⟩ := refuses_of_not_has h
    rw [load_eq_error_iff.mpr hfault]
    exact ⟨nofun, fun hok => absurd hok.1 h⟩

-- ---------------------------------------------------------------------------
-- Writes
-- ---------------------------------------------------------------------------

structure Write where
  addr : Word
  value : Word
  width : Width

def Write.Apart (first second : Write) : Prop :=
  first.addr.toNat + first.width.bytes ≤ second.addr.toNat ∨
    second.addr.toNat + second.width.bytes ≤ first.addr.toNat

variable {w : Write}

def write (m : Memory) (w : Write) : Option Fault × Memory := Bus.write m w.addr w.value w.width

def written? (m : Memory) (w : Write) (x : Nat) : Option Byte :=
  if m.Has w.addr w.width ∧ w.addr.toNat ≤ x ∧ x < w.addr.toNat + w.width.bytes then
    some (w.value.byte (x - w.addr.toNat))
  else none

theorem write_of_has (h : m.Has w.addr w.width) :
    m.write w = (none, { m with cells := m.cells.store (m.offset w.addr) w.value w.width }) := by
  simp only [write, Bus.write, Bus.refusal?, fault?_eq_none_iff.mpr h, Bus.store]

theorem write_of_refuses (h : m.Refuses w.addr w.width fault) : m.write w = (some fault, m) := by
  simp only [write, Bus.write, Bus.refusal?, fault?_eq_some_iff.mpr h]

theorem write_cases (m : Memory) (w : Write) :
    m.Has w.addr w.width ∧
      m.write w = (none, { m with cells := m.cells.store (m.offset w.addr) w.value w.width }) ∨
    ∃ fault, m.Refuses w.addr w.width fault ∧ m.write w = (some fault, m) := by
  by_cases h : m.Has w.addr w.width
  · exact .inl ⟨h, write_of_has h⟩
  · obtain ⟨fault, hfault⟩ := refuses_of_not_has h
    exact .inr ⟨fault, hfault, write_of_refuses hfault⟩

theorem base_write (m : Memory) (w : Write) : (m.write w).2.base = m.base := by
  obtain ⟨-, hwrite⟩ | ⟨fault, -, hwrite⟩ := m.write_cases w
  · rw [hwrite]
  · rw [hwrite]

theorem size_write (m : Memory) (w : Write) : (m.write w).2.size = m.size := by
  obtain ⟨-, hwrite⟩ | ⟨fault, -, hwrite⟩ := m.write_cases w
  · rw [hwrite]
    exact Cells.size_store ..
  · rw [hwrite]

theorem byte?_write (m : Memory) (w : Write) (x : Nat) :
    (m.write w).2.byte? x = (m.written? w x).or (m.byte? x) := by
  obtain ⟨h, hwrite⟩ | ⟨fault, hfault, hwrite⟩ := m.write_cases w
  · have hsize := m.size_write w
    have hbase := m.base_write w
    have hin := h.inside
    have hstart := base_add_offset h
    simp only [written?, h, true_and]
    by_cases hx : x < m.base.toNat ∨ m.base.toNat + m.size ≤ x
    · rw [byte?_of_outside hx, byte?_of_outside (by rwa [hbase, hsize]), if_neg (by omega),
        Option.none_or]
    · obtain ⟨i, rfl⟩ := Nat.exists_eq_add_of_le (Nat.le_of_not_lt fun hlt => hx (.inl hlt))
      have hi : i < m.size := by omega
      have hindex : m.base.toNat + i - w.addr.toNat = i - m.offset w.addr := by omega
      have hafter := (m.write w).2.byte?_add (hsize ▸ hi)
      rw [hbase] at hafter
      rw [hafter, m.byte?_add hi, hwrite, hindex]
      dsimp only
      rw [Cells.store, Cells.get_storeBytes _ _ _ _ _ hin]
      by_cases hunder : m.offset w.addr ≤ i ∧ i < m.offset w.addr + w.width.bytes
      · rw [if_pos hunder, if_pos (by omega), Option.some_or]
      · rw [if_neg hunder, if_neg (by omega), Option.none_or]
  · have hnothing : m.written? w x = none := if_neg fun hin => hfault.not_has hin.1
    rw [hwrite, hnothing, Option.none_or]

theorem Write.Apart.or_comm {first second : Write} (h : first.Apart second) (m : Memory) (x : Nat)
    (rest : Option Byte) : (m.written? first x).or ((m.written? second x).or rest) =
      (m.written? second x).or ((m.written? first x).or rest) := by
  unfold Write.Apart at h
  by_cases hx : first.addr.toNat ≤ x ∧ x < first.addr.toNat + first.width.bytes
  · have hsecond : m.written? second x = none := if_neg (by omega)
    rw [hsecond, Option.none_or, Option.none_or]
  · have hfirst : m.written? first x = none := if_neg fun hin => hx hin.2
    rw [hfirst, Option.none_or, Option.none_or]

-- ---------------------------------------------------------------------------
-- Writes in a row
-- ---------------------------------------------------------------------------

def after (m : Memory) (writes : List Write) : Memory := writes.foldl (fun m w => (m.write w).2) m

/-- The byte that attempts to write put at an address last, or else the one that was there. -/
def latest? (m : Memory) (writes : List Write) (x : Nat) : Option Byte :=
  (writes.reverse.findSome? (m.written? · x)).or (m.byte? x)

theorem has_of_range {a b : Memory} (hbase : a.base = b.base) (hsize : a.size = b.size) :
    a.Has = b.Has := by
  funext addr width
  simp only [Has, hbase, hsize]

theorem refuses_of_range {a b : Memory} (hbase : a.base = b.base) (hsize : a.size = b.size)
    (h : a.Refuses addr width fault) : b.Refuses addr width fault := by
  cases h with
  | unmapped hout => exact .unmapped (by rwa [← hbase, ← hsize])
  | straddle hfirst hlast => exact .straddle (by rwa [← hbase, ← hsize]) (by rwa [← hbase, ← hsize])

theorem base_after (m : Memory) (writes : List Write) : (m.after writes).base = m.base := by
  induction writes generalizing m with
  | nil => rfl
  | cons w writes ih => exact (ih _).trans (m.base_write w)

theorem size_after (m : Memory) (writes : List Write) : (m.after writes).size = m.size := by
  induction writes generalizing m with
  | nil => rfl
  | cons w writes ih => exact (ih _).trans (m.size_write w)

theorem refuses_after (m : Memory) (writes : List Write) :
    (m.after writes).Refuses addr width fault ↔ m.Refuses addr width fault :=
  ⟨refuses_of_range (m.base_after writes) (m.size_after writes),
    refuses_of_range (m.base_after writes).symm (m.size_after writes).symm⟩

theorem has_after (m : Memory) (writes : List Write) :
    (m.after writes).Has addr width ↔ m.Has addr width := by
  rw [has_of_range (m.base_after writes) (m.size_after writes)]

theorem written?_write (m : Memory) (w : Write) : (m.write w).2.written? = m.written? := by
  funext other x
  simp only [written?, has_of_range (m.base_write w) (m.size_write w)]

/-- The first of some writes is what the others find there. -/
theorem latest?_cons (m : Memory) (w : Write) (writes : List Write) (x : Nat) :
    m.latest? (w :: writes) x = (m.write w).2.latest? writes x := by
  rw [latest?, latest?, List.reverse_cons, List.findSome?_append, List.findSome?_singleton,
    written?_write, byte?_write, Option.or_assoc]

theorem byte?_after (m : Memory) (writes : List Write) (x : Nat) :
    (m.after writes).byte? x = m.latest? writes x := by
  induction writes generalizing m with
  | nil => rfl
  | cons w writes ih =>
    rw [latest?_cons]
    exact ih _

theorem after_comm {first second : Write} (h : first.Apart second) (m : Memory) :
    m.after [first, second] = m.after [second, first] := by
  refine ext_byte? ((m.base_after _).trans (m.base_after _).symm)
    ((m.size_after _).trans (m.size_after _).symm)
    fun x => ?_
  have hpair : ∀ a b, m.latest? [a, b] x =
      (m.written? b x).or ((m.written? a x).or (m.byte? x)) := by
    intro a b
    rw [latest?_cons, latest?_cons, latest?, List.reverse_nil, List.findSome?_nil, Option.none_or,
      byte?_write, written?_write, byte?_write]
  rw [byte?_after, byte?_after, hpair, hpair, h.or_comm]

-- ---------------------------------------------------------------------------
-- Accesses after writes
-- ---------------------------------------------------------------------------

/-- The accesses of a memory that has the range of `m` and these bytes in it. -/
structure Holds (m now : Memory) (bytes : Nat → Option Byte) : Prop where
  inside : ∀ addr width, m.Has addr width → now.offset addr + width.bytes ≤ now.size
  loadFault : ∀ addr width signed fault, Bus.load now addr width signed = .error fault ↔
    m.Refuses addr width fault
  loaded : ∀ addr width signed value, Bus.load now addr width signed = .ok value ↔
    m.Has addr width ∧ ∃ b : Nat → Byte, (∀ i < width.bytes, bytes (addr.toNat + i) = some (b i)) ∧
      value = BitVec.ofInt 32
        (if signed then (littleEndian b 0 width.bytes : Int).bmod (2 ^ width.bits)
          else littleEndian b 0 width.bytes)
  storeFault : ∀ w fault after, now.write w = (some fault, after) ↔
    m.Refuses w.addr w.width fault ∧ after = now
  stored : ∀ w after, now.write w = (none, after) ↔
    m.Has w.addr w.width ∧ after.base = m.base ∧ after.size = m.size ∧
    ∀ x, after.byte? x =
      if w.addr.toNat ≤ x ∧ x < w.addr.toNat + w.width.bytes
        then some (w.value.byte (x - w.addr.toNat))
        else bytes x
  loadInPlace : ∀ addr width, fetch addr width now = Work.answer now (Bus.read now addr width)
  storeInPlace : ∀ w : Write, put w.addr w.value w.width now = Work.attempt (now.write w)

theorem write_eq_error_iff {after : Memory} :
    m.write w = (some fault, after) ↔ m.Refuses w.addr w.width fault ∧ after = m := by
  constructor
  · intro h
    obtain ⟨-, hwrite⟩ | ⟨cause, hcause, hwrite⟩ := m.write_cases w
    · rw [hwrite] at h
      cases h
    · rw [hwrite] at h
      cases h
      exact ⟨hcause, rfl⟩
  · rintro ⟨hfault, rfl⟩
    exact write_of_refuses hfault

theorem write_eq_ok_iff {after : Memory} : m.write w = (none, after) ↔
    m.Has w.addr w.width ∧ after.base = m.base ∧ after.size = m.size ∧
      ∀ x, after.byte? x = (m.written? w x).or (m.byte? x) := by
  constructor
  · intro h
    have hafter : (m.write w).2 = after := congrArg Prod.snd h
    obtain ⟨hhas, -⟩ | ⟨cause, -, hwrite⟩ := m.write_cases w
    · rw [← hafter]
      exact ⟨hhas, m.base_write w, m.size_write w, m.byte?_write w⟩
    · rw [hwrite] at h
      cases h
  · rintro ⟨hhas, hbase, hsize, hbytes⟩
    have hafter : (m.write w).2 = after := by
      refine ext_byte? ((m.base_write w).trans hbase.symm)
        ((m.size_write w).trans hsize.symm) fun x => ?_
      rw [m.byte?_write w, hbytes]
    rw [write_of_has hhas] at hafter ⊢
    rw [← hafter]

/-- Whatever was tried to be written, a memory answers with the bytes that were written last, every
access has the fault that its range calls for and stays inside the array if it has none, and writes
to ranges that are apart can be swapped. -/
theorem holds_latest (m : Memory) :
    (∀ writes, m.Holds (m.after writes) (m.latest? writes)) ∧
      ∀ first second : Write, first.Apart second →
        m.after [first, second] = m.after [second, first] := by
  refine ⟨fun writes => ?_, fun first second h => after_comm h m⟩
  have hbytes := funext (m.byte?_after writes)
  exact {
    inside := fun addr width h => ((m.has_after writes).mpr h).inside
    loadFault := fun addr width signed fault => load_eq_error_iff.trans (m.refuses_after writes)
    loaded := fun addr width signed value => by rw [load_eq_ok_iff, has_after, hbytes]
    storeFault := fun w fault after => by rw [write_eq_error_iff, refuses_after]
    stored := fun w after => by
      rw [write_eq_ok_iff, has_after, base_after, size_after]
      refine and_congr_right fun hhas => and_congr_right fun _ => and_congr_right fun _ =>
        forall_congr' fun x => ?_
      rw [byte?_after, written?]
      simp only [(m.has_after writes).mpr hhas, true_and]
      split <;> rfl
    loadInPlace := fetch_eq _
    storeInPlace := fun w => put_eq _ w.addr w.value w.width }

def topmost : Memory := ⟨0xFFFFFFFA, #[1, 2, 3, 4, 5, 6, 7, 8]⟩

def overlapping : List Write :=
  [⟨0xFFFFFFFB, 0x11223344, .word⟩, ⟨0xFFFFFFFD, 0x8899AABB, .word⟩, ⟨0xFFFFFFFF, 0, .word⟩]

theorem holds_latest_overlapping :
    Bus.load (topmost.after overlapping) 0xFFFFFFFC .half true = .ok 0xFFFFBB33 ∧
      Bus.load (topmost.after overlapping) 0xFFFFFFFF .word false =
        .error (.straddle 0xFFFFFFFF .word) ∧
      Write.Apart ⟨0xFFFFFFFB, 1, .half⟩ ⟨0xFFFFFFFD, 2, .word⟩ ∧
      topmost.after [⟨0xFFFFFFFB, 1, .half⟩, ⟨0xFFFFFFFD, 2, .word⟩] =
        topmost.after [⟨0xFFFFFFFD, 2, .word⟩, ⟨0xFFFFFFFB, 1, .half⟩] := by
  obtain ⟨hholds, hcomm⟩ := holds_latest topmost
  have hapart : Write.Apart ⟨0xFFFFFFFB, 1, .half⟩ ⟨0xFFFFFFFD, 2, .word⟩ := .inl (by decide)
  refine ⟨((hholds overlapping).loaded _ _ _ _).mpr
    ⟨by decide, fun i => if i = 0 then 0x33 else 0xBB, ?_, by decide⟩,
    ((hholds overlapping).loadFault _ _ _ _).mpr (.straddle (by decide) (by decide)), hapart,
      hcomm _ _ hapart⟩
  decide

end RiscvBoard.Memory
