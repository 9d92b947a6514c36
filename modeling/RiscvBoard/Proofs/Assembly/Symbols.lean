import RiscvBoard.Assembly.Symbols

/-!
# Tables without repeated names

A table that was filled with `insert` has each name once, so an entry is what is
found under its name.
-/

namespace RiscvBoard.Assembly.Symbols

def Distinct (symbols : Symbols) : Prop := (symbols.entries.map (·.1)).Nodup

variable {symbols after : Symbols} {name : List Char} {addr : Word}

theorem distinct_empty : Distinct {} := List.nodup_nil

theorem find?_eq_none_iff : symbols.find? name = none ↔
    Text.lower name ∉ symbols.entries.map (·.1) := by
  rw [find?, List.lookup_eq_none_iff, List.mem_map]
  constructor
  · rintro h ⟨entry, hmem, hname⟩
    exact bne_iff_ne.mp (h entry hmem) hname.symm
  · intro h entry hmem
    exact bne_iff_ne.mpr fun hname => h ⟨entry, hmem, hname.symm⟩

theorem find?_eq_some_iff (h : symbols.Distinct) :
    symbols.find? name = some addr ↔ (Text.lower name, addr) ∈ symbols.entries := by
  rw [find?, List.lookup_eq_some_iff]
  constructor
  · rintro ⟨front, rest, hentries, -⟩
    rw [hentries]
    exact List.mem_append_right front List.mem_cons_self
  · intro hmem
    obtain ⟨front, rest, hentries⟩ := List.append_of_mem hmem
    refine ⟨front, rest, hentries, fun entry he => bne_iff_ne.mpr fun hname => ?_⟩
    rw [Distinct, hentries, List.map_append, List.nodup_append] at h
    exact h.2.2 entry.1 (List.mem_map_of_mem he) _ List.mem_cons_self hname.symm

theorem insert_eq_ok_iff : symbols.insert name addr = .ok after ↔
    symbols.find? name = none ∧ after = ⟨(Text.lower name, addr) :: symbols.entries⟩ := by
  unfold insert
  cases hfind : symbols.find? name with
  | none => exact ⟨fun h => ⟨rfl, (Except.ok.inj h).symm⟩, fun h => congrArg _ h.2.symm⟩
  | some first => exact ⟨nofun, nofun⟩

theorem Distinct.insert (h : symbols.Distinct) (hinsert : symbols.insert name addr = .ok after) :
    after.Distinct := by
  obtain ⟨hfind, rfl⟩ := insert_eq_ok_iff.mp hinsert
  exact List.nodup_cons.mpr ⟨find?_eq_none_iff.mp hfind, h⟩

end RiscvBoard.Assembly.Symbols
