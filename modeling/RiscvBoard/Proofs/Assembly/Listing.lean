import RiscvBoard.Assembly.Program
import RiscvBoard.Listing
import RiscvBoard.Proofs.Assembly.Line
import RiscvBoard.Proofs.Assembly.Statement

/-!
# Listings assemble to their words

A plain listing has one line for each word and no label. The line of a word that
decodes is assembled to that word; the line of any other word is a placeholder,
and its first word `unknown` is no mnemonic.
-/

namespace RiscvBoard.Assembly

-- ---------------------------------------------------------------------------
-- Placeholders
-- ---------------------------------------------------------------------------

def placeholderRest (w : Word) : List Char :=
  Numeral.fixed 2 7 w.opcode ++ (", funct3:".toList ++ (Numeral.fixed 2 3 w.funct3 ++
    (", funct7:".toList ++ (Numeral.fixed 2 7 w.funct7 ++ [')']))))

theorem toList_functionText (w : Word) :
    w.functionText.toList = "(opcode:".toList ++ (Numeral.fixed 2 7 w.opcode ++
      (", funct3:".toList ++ (Numeral.fixed 2 3 w.funct3 ++
        (", funct7:".toList ++ (Numeral.fixed 2 7 w.funct7 ++ ")".toList))))) := by
  simp only [Word.functionText, Numeral.binary, String.toList_append, String.toList_ofList,
    List.append_assoc]

theorem toList_placeholder (w : Word) :
    w.placeholder.toList =
      "unknown instruction ".toList ++ ("(opcode".toList ++ ':' :: placeholderRest w) := by
  have hcolon : "(opcode:".toList = "(opcode".toList ++ [':'] := by decide
  have hclose : ")".toList = [')'] := by decide
  have htext := toList_functionText w
  rw [hcolon, hclose, List.append_assoc, List.singleton_append] at htext
  unfold placeholderRest
  rw [← htext]
  exact String.toList_append

def isListed (c : Char) : Bool := isWritten c || c == ':'

theorem isListed_of_mem_placeholder {w : Word} {c : Char} (h : c ∈ w.placeholder.toList) :
    isListed c = true := by
  have hbits : ∀ count n, c ∈ Numeral.fixed 2 count n → isListed c = true := by
    intro count n hc
    have hd := Numeral.isDigit_of_mem_fixed (by decide) (by decide) hc
    rw [isListed, isWritten_of_isBare (isBare_of_isDigit hd), Bool.true_or]
  have htext : ∀ text : List Char, text.all isListed = true → c ∈ text → isListed c = true :=
    fun text ht => List.all_eq_true.mp ht c
  simp only [toList_placeholder, placeholderRest, List.mem_append, List.mem_cons,
    List.not_mem_nil, or_false] at h
  obtain h | h | rfl | h | h | h | h | h | rfl := h
  · exact htext _ (by decide) h
  · exact htext _ (by decide) h
  · decide
  · exact hbits _ _ h
  · exact htext _ (by decide) h
  · exact hbits _ _ h
  · exact htext _ (by decide) h
  · exact hbits _ _ h
  · decide

theorem tight_placeholder (w : Word) : Text.Tight w.placeholder.toList := by
  have hlast : w.placeholder.toList.getLast? = some ')' := by
    rw [toList_placeholder, placeholderRest]
    simp only [← List.append_assoc, ← List.cons_append, List.getLast?_concat]
  refine ⟨fun c hc => ?_, fun c hc => ?_⟩
  · rw [toList_placeholder] at hc
    cases hc
    decide
  · cases hlast.symm.trans hc
    decide

theorem splitFirst?_placeholder (w : Word) :
    Text.splitFirst? (· == ':') w.placeholder.toList =
      some ("unknown instruction ".toList ++ "(opcode".toList, placeholderRest w) := by
  rw [toList_placeholder, ← List.append_assoc]
  exact Text.splitFirst?_append_of_all (by decide) (by decide)

theorem encodeStatement_placeholder (symbols : Symbols) (pc : Word) (w : Word) :
    encodeStatement symbols pc w.placeholder.toList = .error (.unknownMnemonic "unknown") := by
  have hparts : (mnemonicAndRest w.placeholder.toList).1 = "unknown".toList := by
    have hblank : "unknown instruction ".toList =
        "unknown".toList ++ ' ' :: "instruction ".toList := by
      decide
    rw [mnemonicAndRest, toList_placeholder, hblank, List.append_assoc, List.cons_append,
      Text.splitFirst?_append_of_all (by decide) (by decide)]
  have hnone : Operation.ofMnemonic? "unknown".toList = none := by decide +kernel
  simp only [encodeStatement, hparts, hnone, String.ofList_toList]

-- ---------------------------------------------------------------------------
-- The lines of a listing
-- ---------------------------------------------------------------------------

theorem isListed_of_mem_disassemble {w : Word} {c : Char} (h : c ∈ (disassemble w).toList) :
    isListed c = true := by
  unfold disassemble at h
  split at h
  · rename_i i _
    rw [isListed, Operation.isWritten_of_mem_written (operands_ne_nil i) h, Bool.true_or]
  · exact isListed_of_mem_placeholder h

theorem tight_disassemble (w : Word) : Text.Tight (disassemble w).toList := by
  unfold disassemble
  split
  · rename_i i _
    exact (i.op.tight_written (operands_ne_nil i)).1
  · exact tight_placeholder w

theorem disassemble_ne_nil (w : Word) : (disassemble w).toList ≠ [] := by
  unfold disassemble
  split
  · rename_i i _
    exact (i.op.tight_written (operands_ne_nil i)).2
  · rw [toList_placeholder]
    exact List.cons_ne_nil _ _

theorem ne_of_mem_disassemble {w : Word} {c other : Char} (h : c ∈ (disassemble w).toList)
    (ho : isListed other = false) : c ≠ other := fun he => by
  rw [← he, isListed_of_mem_disassemble h] at ho
  cases ho

def listedLine (w : Word) (number : Nat) : Line :=
  { number, label := none, instruction := some (disassemble w).toList }

theorem read?_disassemble (w : Word) (number : Nat) :
    Line.read? number (disassemble w).toList = some (listedLine w number) := by
  have hcomment : uncommented (disassemble w).toList = (disassemble w).toList :=
    uncommented_of_forall fun c hc =>
      ⟨ne_of_mem_disassemble hc (by decide), ne_of_mem_disassemble hc (by decide)⟩
  have hne : ¬(disassemble w).toList.isEmpty = true := by
    rw [List.isEmpty_iff]
    exact disassemble_ne_nil w
  simp only [Line.read?, hcomment, Text.trim_of_tight (tight_disassemble w), if_neg hne, listedLine]
  cases hd : decode w with
  | ok i =>
    have hcolon : Text.splitFirst? (· == ':') i.text.toList = none :=
      Text.splitFirst?_of_forall fun c hc =>
        ne_of_isWritten (Operation.isWritten_of_mem_written (operands_ne_nil i) hc) (by decide)
    simp only [disassemble, hd, hcolon]
  | error e =>
    have hname :
        isName (Text.trim ("unknown instruction ".toList ++ "(opcode".toList)) = false := by
      decide
    simp only [disassemble, hd, splitFirst?_placeholder, hname, Bool.false_eq_true, if_false]

theorem toList_render (base : Word) (words : List Word) :
    (Listing.render .plain (Listing.rows base words)).toList =
      (words.map fun w => (disassemble w).toList).flatMap (· ++ ['\n']) := by
  have hplain : ∀ row : Listing.Row, row.plainLine.toList = row.text.toList ++ ['\n'] :=
    fun row => String.toList_append
  have htexts : (Listing.rows base words).map Listing.Row.text = words.map disassemble := by
    have hfst := congrArg (List.map disassemble) (List.zipIdx_map_fst 0 words)
    rw [List.map_map] at hfst
    rw [Listing.rows, List.map_map]
    exact hfst
  simp only [Listing.render, String.toList_join, List.flatMap_map, hplain]
  rw [← List.flatMap_map Listing.Row.text fun text => text.toList ++ ['\n'], htexts,
    List.flatMap_map]

theorem sourceLines_render (base : Word) (words : List Word) :
    sourceLines (Listing.render .plain (Listing.rows base words)) =
      (words.zipIdx 1).map fun (w, number) => listedLine w number := by
  have hclean : ∀ other, isListed other = false →
      ∀ text ∈ words.map fun w => (disassemble w).toList, other ∉ text := by
    intro other ho text ht hm
    obtain ⟨w, -, rfl⟩ := List.mem_map.mp ht
    exact ne_of_mem_disassemble hm ho rfl
  rw [sourceLines, toList_render,
    Text.lines_flatMap (hclean '\n' (by decide)) (hclean '\r' (by decide)), List.zipIdx_map,
    List.filterMap_map, ← List.filterMap_eq_map]
  exact congrArg (List.filterMap · (words.zipIdx 1))
    (funext fun (w, number) => read?_disassemble w number)

-- ---------------------------------------------------------------------------
-- The program of a listing
-- ---------------------------------------------------------------------------

theorem define_of_no_labels {symbols : Symbols} {lines : List (Word × Line)}
    (h : ∀ line ∈ lines, line.2.label = none) : define symbols lines = (symbols, []) := by
  induction lines with
  | nil => rfl
  | cons line lines ih =>
    simp only [define, h line List.mem_cons_self]
    exact ih fun other ho => h other (List.mem_cons_of_mem line ho)

def reassembled (w : Word) : Except Error Word :=
  if (decode w).isOk then .ok w else .error (.unknownMnemonic "unknown")

theorem encodeStatement_disassemble (symbols : Symbols) (pc w : Word) :
    encodeStatement symbols pc (disassemble w).toList = reassembled w := by
  unfold disassemble reassembled
  cases hd : decode w with
  | ok i =>
    obtain ⟨hencode, -⟩ := encode_of_decode hd
    exact encodeStatement_text hencode
  | error e => exact encodeStatement_placeholder symbols pc w

theorem encoded_listed (symbols : Symbols) (origin : Word) (words : List Word) (number : Nat) :
    encoded symbols
      (placed origin ((words.zipIdx number).map fun (w, number) => listedLine w number)) =
      (words.zipIdx number).map fun (w, number) => (number, reassembled w) := by
  induction words generalizing origin number with
  | nil => rfl
  | cons w words ih =>
    have hhead := encodeStatement_disassemble symbols origin w
    rw [List.zipIdx_cons, List.map_cons, List.map_cons, ← ih (origin + 4)]
    simp only [← hhead]
    rfl

def unknownLines (words : List Word) : List LineError :=
  (words.zipIdx 1).filterMap fun (w, number) =>
    if (decode w).isOk then none else some ⟨number, .unknownMnemonic "unknown"⟩

theorem encodingErrors_reassembled (words : List Word) :
    encodingErrors ((words.zipIdx 1).map fun (w, number) => (number, reassembled w)) =
      unknownLines words := by
  unfold encodingErrors unknownLines
  rw [List.filterMap_map]
  refine congrArg (List.filterMap · (words.zipIdx 1)) (funext fun (w, number) => ?_)
  by_cases hw : (decode w).isOk = true
  · simp only [Function.comp_def, reassembled, if_pos hw]
  · simp only [Function.comp_def, reassembled, if_neg hw]

theorem pairwise_unknownLines (words : List Word) :
    (unknownLines words).Pairwise fun a b => decide (a.line ≤ b.line) = true := by
  refine List.Pairwise.filterMap _ ?_ (pairwise_zipIdx words 1)
  rintro ⟨v, m⟩ ⟨w, n⟩ hlt a ha b hb
  simp only at ha hb
  split at ha <;> cases ha
  split at hb <;> cases hb
  exact decide_eq_true (Nat.le_of_lt hlt)

theorem unknownLines_eq_nil_iff {words : List Word} :
    unknownLines words = [] ↔ ∀ w ∈ words, (decode w).isOk = true := by
  rw [unknownLines, List.filterMap_eq_nil_iff]
  constructor
  · intro h w hw
    rw [← List.zipIdx_map_fst 1 words] at hw
    obtain ⟨entry, he, rfl⟩ := List.mem_map.mp hw
    have hnone := h entry he
    by_cases hok : (decode entry.1).isOk = true
    · exact hok
    · simp only [if_neg hok, reduceCtorEq] at hnone
  · intro h entry he
    exact if_pos (h entry.1 (List.fst_mem_of_mem_zipIdx he))

theorem words_reassembled {words : List Word} (h : ∀ w ∈ words, (decode w).isOk = true)
    (number : Nat) :
    ((words.zipIdx number).map fun (w, n) => (n, reassembled w)).filterMap
      (·.2.toOption) = words := by
  induction words generalizing number with
  | nil => rfl
  | cons w words ih =>
    have hw : reassembled w = .ok w := if_pos (h w List.mem_cons_self)
    have hrest := ih (fun v hv => h v (List.mem_cons_of_mem w hv)) (number + 1)
    simp only [List.zipIdx_cons, List.map_cons, hw, List.filterMap_cons, Except.toOption]
    exact congrArg (w :: ·) hrest

/-- A plain listing assembles to its words, one on a line and without labels. If some words do not
decode, their lines are reported and nothing else is. -/
theorem assemble_listing (origin base : Word) (words : List Word) :
    assemble origin (Listing.render .plain (Listing.rows base words)) =
      if words.all fun w => (decode w).isOk then
        .ok { words, lineMap := List.range' 1 words.length, symbols := {} }
      else .error (unknownLines words) := by
  have hlabels : ∀ line ∈ placed origin ((words.zipIdx 1).map fun (w, n) => listedLine w n),
      line.2.label = none := by
    intro line hl
    have hs := List.mem_map_of_mem (f := (·.2)) hl
    rw [map_snd_placed] at hs
    obtain ⟨entry, -, he⟩ := List.mem_map.mp hs
    rw [← he]
    rfl
  have hlines : ((words.zipIdx 1).map fun (w, n) => (n, reassembled w)).map (·.1) =
      List.range' 1 words.length := by
    rw [List.map_map, ← List.zipIdx_map_snd]
    rfl
  simp only [assemble, sourceLines_render, define_of_no_labels hlabels, encoded_listed,
    encodingErrors_reassembled, List.nil_append, hlines]
  by_cases hall : ∀ w ∈ words, (decode w).isOk = true
  · rw [unknownLines_eq_nil_iff.mpr hall, words_reassembled hall,
      if_pos (List.all_eq_true.mpr hall)]
    rfl
  · rw [if_neg fun h => hall (List.all_eq_true.mp h),
      if_neg fun h => hall (unknownLines_eq_nil_iff.mp (List.isEmpty_iff.mp h)),
      List.mergeSort_of_pairwise (pairwise_unknownLines words)]

end RiscvBoard.Assembly
