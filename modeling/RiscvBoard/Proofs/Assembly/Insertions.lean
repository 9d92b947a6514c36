import Mathlib.Data.Char
import Mathlib.Data.Finset.Card
import Mathlib.Data.List.Lex
import Mathlib.Data.Prod.Lex
import RiscvBoard.Proofs.Assembly.Table

/-!
# What a table keeps of its insertions

The first insertion of a name counts, in whatever case its letters are; each later
one fails with the address that the first one gave. So a table is told by the
insertions in their order, and its sorted listing by the names and addresses
alone, in whatever order the entries lie.
-/

namespace RiscvBoard.Assembly.Symbols

def filled (history : List (List Char × Word)) : Symbols := history.foldl add {}

/-- The address that the first insertion of a name gave, in whatever case its letters were. -/
def first? (history : List (List Char × Word)) (name : List Char) : Option Word :=
  (history.find? fun entry => Text.lower entry.1 = Text.lower name).map (·.2)

def Precedes (a b : List Char × Word) : Prop := a.2 < b.2 ∨ a.2 = b.2 ∧ a.1 < b.1

structure FirstWins (history : List (List Char × Word)) (symbols : Symbols) : Prop where
  insert : ∀ name addr, symbols.insert name addr = match first? history name with
    | none => .ok (filled (history ++ [(name, addr)]))
    | some first => .error first
  unchanged : ∀ name addr, first? history name ≠ none → filled (history ++ [(name, addr)]) = symbols
  found : ∀ name, symbols.find? name = first? history name
  size : symbols.size = (history.map fun entry => Text.lower entry.1).toFinset.card
  listed : ∀ name addr, (name, addr) ∈ symbols.sorted ↔
    ∃ spelling, Text.lower spelling = name ∧ first? history spelling = some addr
  increasing : symbols.sorted.Pairwise Precedes
  anyOrder : ∀ entries, entries.Perm symbols.entries → (Symbols.mk entries).sorted = symbols.sorted

-- ---------------------------------------------------------------------------
-- Names
-- ---------------------------------------------------------------------------

section

variable {symbols : Symbols} {history : List (List Char × Word)} {entry : List Char × Word}
  {name : List Char} {addr : Word}

theorem first?_cons (entry : List Char × Word) (history : List (List Char × Word))
    (name : List Char) : first? (entry :: history) name =
      (if Text.lower entry.1 = Text.lower name then some entry.2 else none).or
        (first? history name) := by
  rw [first?, List.find?_cons]
  by_cases hname : Text.lower entry.1 = Text.lower name
  · simp [hname]
  · simp [hname, first?]

theorem find?_foldl_add (symbols : Symbols) (history : List (List Char × Word)) (name : List Char) :
    (history.foldl add symbols).find? name = (symbols.find? name).or (first? history name) := by
  induction history generalizing symbols with
  | nil => exact Option.or_none.symm
  | cons entry history ih => rw [List.foldl_cons, ih, find?_add, Option.or_assoc, first?_cons]

theorem mem_names_add : name ∈ (symbols.add entry).entries.map (·.1) ↔
    name = Text.lower entry.1 ∨ name ∈ symbols.entries.map (·.1) := by
  cases hfind : symbols.find? entry.1 with
  | none =>
    rw [add_of_find?_eq_none hfind]
    exact List.mem_cons
  | some first =>
    have hmem : Text.lower entry.1 ∈ symbols.entries.map (·.1) := by
      by_contra hnew
      rw [← find?_eq_none_iff, hfind] at hnew
      cases hnew
    rw [add_of_find?_eq_some hfind]
    exact ⟨.inr, fun h => h.elim (fun hname => hname ▸ hmem) id⟩

theorem mem_names_foldl_add : name ∈ (history.foldl add symbols).entries.map (·.1) ↔
    name ∈ symbols.entries.map (·.1) ∨ ∃ entry ∈ history, Text.lower entry.1 = name := by
  induction history generalizing symbols with
  | nil => simp
  | cons entry history ih =>
    rw [List.foldl_cons, ih, mem_names_add, List.exists_mem_cons_iff, eq_comm (a := name), or_assoc,
      or_left_comm]

theorem Distinct.add (h : symbols.Distinct) (entry : List Char × Word) :
    (symbols.add entry).Distinct := by
  cases hfind : symbols.find? entry.1 with
  | none =>
    rw [add_of_find?_eq_none hfind]
    exact h.insert (insert_eq_ok_iff.mpr ⟨hfind, rfl⟩)
  | some first => rwa [add_of_find?_eq_some hfind]

theorem Distinct.foldl_add (h : symbols.Distinct) (history : List (List Char × Word)) :
    (history.foldl Symbols.add symbols).Distinct := by
  induction history generalizing symbols with
  | nil => exact h
  | cons entry history ih => exact ih (h.add entry)

theorem distinct_filled (history : List (List Char × Word)) : (filled history).Distinct :=
  distinct_empty.foldl_add history

theorem find?_filled (history : List (List Char × Word)) (name : List Char) :
    (filled history).find? name = first? history name :=
  find?_foldl_add {} history name

theorem filled_append (history : List (List Char × Word)) (name : List Char) (addr : Word) :
    filled (history ++ [(name, addr)]) = (filled history).add (name, addr) := by
  rw [filled, List.foldl_append]
  rfl

theorem mem_filled : (name, addr) ∈ (filled history).entries ↔
    ∃ spelling, Text.lower spelling = name ∧ first? history spelling = some addr := by
  simp only [← find?_filled, find?_eq_some_iff (distinct_filled history)]
  constructor
  · intro hmem
    obtain hempty | ⟨entry, -, hname⟩ := mem_names_foldl_add.mp (List.mem_map_of_mem hmem)
    · cases hempty
    · exact ⟨entry.1, hname, hname ▸ hmem⟩
  · rintro ⟨spelling, rfl, hmem⟩
    exact hmem

theorem size_filled (history : List (List Char × Word)) :
    (filled history).size = (history.map fun entry => Text.lower entry.1).toFinset.card := by
  have hnames : ((filled history).entries.map (·.1)).toFinset =
      (history.map fun entry => Text.lower entry.1).toFinset := by
    ext name
    rw [List.mem_toFinset, List.mem_toFinset, filled, mem_names_foldl_add]
    simp
  rw [← hnames, List.toFinset_card_of_nodup (distinct_filled history), List.length_map, size]

end

-- ---------------------------------------------------------------------------
-- Order
-- ---------------------------------------------------------------------------

section

variable {symbols : Symbols} {a b : List Char × Word}

def rank (entry : List Char × Word) : Nat ×ₗ List Char := toLex (entry.2.toNat, entry.1)

theorem rank_injective : Function.Injective rank := by
  intro a b h
  obtain ⟨haddr, hname⟩ := Prod.mk.inj (toLex.injective h)
  exact Prod.ext hname (BitVec.eq_of_toNat_eq haddr)

theorem rank_lt_iff : rank a < rank b ↔ Precedes a b := by
  rw [rank, rank, Prod.Lex.toLex_lt_toLex, Precedes, BitVec.lt_def, BitVec.toNat_inj]

theorem before_iff : before a b = true ↔ rank a ≤ rank b := by
  have hname : (List.lex b.1 a.1 fun c d => c.toNat < d.toNat) = decide (b.1 < a.1) := by
    rw [List.lex_eq_decide_lex]
    simp only [decide_eq_true_eq]
    exact decide_eq_decide.mpr Iff.rfl
  rw [before, hname, rank, rank, Prod.Lex.toLex_le_toLex]
  simp [BitVec.lt_def, BitVec.toNat_inj]

theorem before_trans (a b c : List Char × Word) (hab : before a b = true)
    (hbc : before b c = true) : before a c = true :=
  before_iff.mpr ((before_iff.mp hab).trans (before_iff.mp hbc))

theorem before_total (a b : List Char × Word) : (before a b || before b a) = true := by
  rw [Bool.or_eq_true, before_iff, before_iff]
  exact le_total (rank a) (rank b)

theorem pairwise_sorted (symbols : Symbols) : symbols.sorted.Pairwise fun a b => rank a ≤ rank b :=
  (List.pairwise_mergeSort before_trans before_total symbols.entries).imp before_iff.mp

theorem Distinct.precedes_sorted (h : symbols.Distinct) : symbols.sorted.Pairwise Precedes := by
  have hnodup : symbols.sorted.Nodup := (List.mergeSort_perm _ _).nodup_iff.mpr h.of_map
  refine ((pairwise_sorted symbols).and hnodup).imp fun ⟨hle, hne⟩ => ?_
  exact rank_lt_iff.mp (lt_of_le_of_ne hle (rank_injective.ne hne))

theorem sorted_of_perm {entries others : List (List Char × Word)} (h : entries.Perm others) :
    (Symbols.mk entries).sorted = (Symbols.mk others).sorted := by
  have hperm :=
    (List.mergeSort_perm entries before).trans (h.trans (List.mergeSort_perm others before).symm)
  refine hperm.eq_of_pairwise (fun a b _ _ hab hba => rank_injective (le_antisymm hab hba)) ?_ ?_
  · exact pairwise_sorted ⟨entries⟩
  · exact pairwise_sorted ⟨others⟩

end

theorem filled_firstWins (history : List (List Char × Word)) :
    FirstWins history (filled history) where
  insert name addr := by
    rw [← find?_filled]
    cases hfind : (filled history).find? name with
    | none =>
      dsimp only
      rw [filled_append, add_of_find?_eq_none hfind]
      exact insert_eq_ok_iff.mpr ⟨hfind, rfl⟩
    | some first => exact insert_eq_error_iff.mpr hfind
  unchanged name addr hused := by
    obtain ⟨first, hfirst⟩ := Option.ne_none_iff_exists'.mp hused
    rw [← find?_filled] at hfirst
    rw [filled_append, add_of_find?_eq_some hfirst]
  found := find?_filled history
  size := size_filled history
  listed name addr := by rw [sorted, List.mem_mergeSort, mem_filled]
  increasing := (distinct_filled history).precedes_sorted
  anyOrder _ h := sorted_of_perm h

end RiscvBoard.Assembly.Symbols
