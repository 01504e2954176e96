import Mathlib.Algebra.BigOperators.Group.List.Basic
import Yfs.ExtentServer
import Yfs.Library.Decimal
import Yfs.Library.Delimited

/-!
# Directory text

A directory is a text of entries `name/inum/`.  `create`, `mkdir` and `symlink`
append an entry, `unlink` writes all entries anew, and `readdir` parses the text.
-/

namespace Yfs

open Delimited

structure Dirent where
  name : List Byte
  inum : ExtentId
  deriving DecidableEq, Repr

/-- `entry.name == std::string(name)`. -/
def Dirent.hasName (entry : Dirent) (name : List Byte) : Bool :=
  entry.name = name

/-- The character `/`. -/
def slash : Byte := 47

/-- `name << "/" << inum << "/"`. -/
def entryText (name : List Byte) (inum : ExtentId) : List Byte :=
  name ++ [slash] ++ Decimal.print inum.toNat ++ [slash]

/-- The text that `unlink` writes for a list of entries. -/
def entriesText (entries : List Dirent) : List Byte :=
  entries.flatMap fun entry => entryText entry.name entry.inum

/-- The loop of `readdir`, with at most `fuel` iterations. -/
def parseEntries : Nat → Stream Byte → List Dirent → Except Fault (List Dirent)
  | 0, _, _ => .error .diverged
  | fuel + 1, ss, list =>
      let (_, name, ss) := getline slash ss []
      if name = [] then .ok list
      else
        let (more, token, ss) := getline slash ss name
        let entry : Dirent := ⟨name, (Decimal.atoi token).signExtend 64⟩
        if more then parseEntries fuel ss (list ++ [entry]) else .ok (list ++ [entry])

/-- Every iteration of the parsing loop takes input, so it ends. -/
theorem parseEntries_returns (fuel : Nat) (ss : Stream Byte) (list : List Dirent)
    (enough : ss.rest.length < fuel) :
    ∃ entries, parseEntries fuel ss list = .ok entries := by
  induction fuel generalizing ss list with
  | zero => exact absurd enough (Nat.not_lt_zero _)
  | succ fuel ih =>
      rw [parseEntries]
      by_cases finished : (getline slash ss []).2.1 = []
      · exact ⟨list, by simp only [finished, if_true]⟩
      · have shorter := length_getline_lt ss finished
        simp only [finished, if_false]
        split
        · exact ih _ _ (Nat.lt_of_le_of_lt (length_getline_le _ _)
            (Nat.lt_of_lt_of_le shorter (Nat.le_of_lt_succ enough)))
        · exact ⟨_, rfl⟩

/-- A loop that has ended does not use more fuel. -/
theorem parseEntries_more {fuel : Nat} (more : Nat) {ss : Stream Byte} {list : List Dirent}
    {result : List Dirent} (parsed : parseEntries fuel ss list = .ok result) :
    parseEntries (fuel + more) ss list = .ok result := by
  induction fuel generalizing ss list with
  | zero => cases parsed
  | succ fuel ih =>
      rw [Nat.succ_add]
      rw [parseEntries] at parsed ⊢
      by_cases finished : (getline slash ss []).2.1 = []
      · simp only [finished, if_true] at parsed ⊢
        exact parsed
      · simp only [finished, if_false] at parsed ⊢
        split at parsed
        · rename_i again
          rw [if_pos again]
          exact ih parsed
        · rename_i last
          rw [if_neg last]
          exact parsed

/-- The names are taken from the input, and none is empty. -/
theorem parseEntries_names (fuel : Nat) (ss : Stream Byte) (list : List Dirent)
    {result : List Dirent} (parsed : parseEntries fuel ss list = .ok result) :
    ∃ entries, result = list ++ entries ∧ (∀ entry ∈ entries, entry.name ≠ []) ∧
      (entries.map fun entry => entry.name.length).sum ≤ ss.rest.length := by
  induction fuel generalizing ss list with
  | zero => cases parsed
  | succ fuel ih =>
      rw [parseEntries] at parsed
      have first : (getline slash ss []).2.1.length +
          (getline slash ss []).2.2.rest.length ≤ ss.rest.length := length_getline_add ss
      by_cases finished : (getline slash ss []).2.1 = []
      · simp only [finished, if_true] at parsed
        cases parsed
        exact ⟨[], (List.append_nil _).symm, fun _ member => absurd member List.not_mem_nil,
          Nat.zero_le _⟩
      · simp only [finished, if_false] at parsed
        have second : (getline slash (getline slash ss []).2.2
            (getline slash ss []).2.1).2.2.rest.length ≤
              (getline slash ss []).2.2.rest.length := length_getline_le _ _
        split at parsed
        · obtain ⟨entries, rfl, names, sum⟩ := ih _ _ parsed
          refine ⟨_ :: entries, List.append_assoc _ _ _, ?_, ?_⟩
          · intro entry member
            rcases List.mem_cons.mp member with rfl | later
            · exact finished
            · exact names entry later
          · rw [List.map_cons, List.sum_cons]
            exact Nat.le_trans (Nat.add_le_add_left (Nat.le_trans sum second) _) first
        · cases parsed
          refine ⟨[_], rfl, ?_, ?_⟩
          · intro entry member
            cases List.mem_singleton.mp member
            exact finished
          · rw [List.map_singleton, List.sum_singleton]
            exact Nat.le_trans (Nat.le_add_right _ _) first

/-- The entries of a directory text. -/
def listing (text : List Byte) : List Dirent :=
  match parseEntries (text.length + 1) ⟨text, true⟩ [] with
  | .ok entries => entries
  | .error _ => []

theorem parseEntries_eq (text : List Byte) :
    parseEntries (text.length + 1) ⟨text, true⟩ [] = .ok (listing text) := by
  obtain ⟨entries, parsed⟩ :=
    parseEntries_returns (text.length + 1) ⟨text, true⟩ [] (Nat.lt_succ_self _)
  rw [listing, parsed]

/-- A name and an inode number that survive the text. -/
structure Dirent.Valid (entry : Dirent) : Prop where
  name_ne : entry.name ≠ []
  name_free : slash ∉ entry.name
  inum_lt : entry.inum.toNat < 2 ^ 31

theorem slash_not_mem_print (number : Nat) : slash ∉ Decimal.print number :=
  fun member => absurd (Decimal.isDigit_of_mem_print member) (by decide)

/-- One iteration of the loop reads back one entry. -/
theorem parseEntries_entryText {entry : Dirent} (valid : entry.Valid) (fuel : Nat)
    (rest : List Byte) (list : List Dirent) :
    parseEntries (fuel + 1) ⟨entryText entry.name entry.inum ++ rest, true⟩ list =
      parseEntries fuel ⟨rest, true⟩ (list ++ [entry]) := by
  have name : entryText entry.name entry.inum ++ rest =
      entry.name ++ slash :: (Decimal.print entry.inum.toNat ++ slash :: rest) := by
    simp only [entryText, List.append_assoc, List.cons_append, List.nil_append]
  have value : (Decimal.atoi (Decimal.print entry.inum.toNat)).signExtend 64 =
      entry.inum := by
    rw [Decimal.atoi_print valid.inum_lt, BitVec.ofNat_toNat, BitVec.setWidth_eq]
  rw [parseEntries, name]
  simp only [getline_append valid.name_free, getline_append (slash_not_mem_print _),
    if_neg valid.name_ne, if_true, value]

theorem parseEntries_entriesText {entries : List Dirent}
    (valid : ∀ entry ∈ entries, entry.Valid) (fuel : Nat) (list : List Dirent)
    (enough : entries.length < fuel) :
    parseEntries fuel ⟨entriesText entries, true⟩ list = .ok (list ++ entries) := by
  induction entries generalizing fuel list with
  | nil =>
      obtain ⟨fuel, rfl⟩ := Nat.exists_eq_succ_of_ne_zero (Nat.ne_of_gt enough)
      rw [parseEntries, entriesText, List.flatMap_nil, getline_nil, List.append_nil]
      rfl
  | cons entry rest ih =>
      obtain ⟨fuel, rfl⟩ :=
        Nat.exists_eq_succ_of_ne_zero (Nat.ne_of_gt (Nat.zero_lt_of_lt enough))
      rw [entriesText, List.flatMap_cons,
        parseEntries_entryText (valid entry List.mem_cons_self)]
      have read := ih (fun other member => valid other (List.mem_cons_of_mem _ member))
        fuel (list ++ [entry]) (Nat.lt_of_succ_lt_succ enough)
      rw [List.append_assoc, List.singleton_append] at read
      exact read

theorem length_le_entriesText (entries : List Dirent) :
    entries.length ≤ (entriesText entries).length := by
  induction entries with
  | nil => exact Nat.le_refl _
  | cons entry rest ih =>
      have delimited : 1 ≤ (entryText entry.name entry.inum).length := by
        simp only [entryText, List.length_append, List.length_singleton]
        omega
      rw [entriesText] at ih ⊢
      rw [List.flatMap_cons, List.length_append, List.length_cons]
      omega

/-- `readdir` reads back what the writers wrote. -/
theorem listing_entriesText {entries : List Dirent}
    (valid : ∀ entry ∈ entries, entry.Valid) :
    listing (entriesText entries) = entries := by
  have parsed := parseEntries_eq (entriesText entries)
  rw [parseEntries_entriesText valid _ _
    (Nat.lt_succ_of_le (length_le_entriesText entries))] at parsed
  exact (Except.ok.inj parsed).symm

/-- Appending the text of an entry is writing it last. -/
theorem entriesText_concat (entries : List Dirent) (name : List Byte)
    (inum : ExtentId) :
    entriesText entries ++ entryText name inum =
      entriesText (entries ++ [⟨name, inum⟩]) := by
  simp only [entriesText, List.flatMap_append, List.flatMap_cons, List.flatMap_nil,
    List.append_nil]

/-- The loop reads back, in order, what the writers wrote; the text with the entry that
`create` appends is the one `unlink` would write; and the loop ends on every text. -/
theorem directory_text_round_trip :
    (∀ entries : List Dirent, (∀ entry ∈ entries, entry.Valid) →
      ∀ fuel, (entriesText entries).length < fuel →
        parseEntries fuel ⟨entriesText entries, true⟩ [] = .ok entries) ∧
    (∀ (entries : List Dirent) (name : List Byte) (inum : ExtentId),
      entriesText entries ++ entryText name inum =
        entriesText (entries ++ [⟨name, inum⟩])) ∧
    ∀ (text : List Byte) (list : List Dirent), ∃ entries, ∀ fuel, text.length < fuel →
      parseEntries fuel ⟨text, true⟩ list = .ok entries := by
  refine ⟨fun entries valid fuel enough => ?_, entriesText_concat, fun text list => ?_⟩
  · have within := Nat.lt_of_le_of_lt (length_le_entriesText entries) enough
    exact parseEntries_entriesText valid fuel [] within
  · obtain ⟨entries, parsed⟩ :=
      parseEntries_returns (text.length + 1) ⟨text, true⟩ list (Nat.lt_succ_self _)
    refine ⟨entries, fun fuel enough => ?_⟩
    obtain ⟨more, rfl⟩ := Nat.exists_eq_add_of_le (Nat.succ_le_of_lt enough)
    exact parseEntries_more more parsed

/-- A name of digits, a blank and a newline, and the largest number. -/
theorem directory_text_round_trip_two :
    parseEntries 40 ⟨entriesText [⟨[97], 2⟩, ⟨[49, 32, 10], 2147483647⟩], true⟩ [] =
      .ok [⟨[97], 2⟩, ⟨[49, 32, 10], 2147483647⟩] := by
  have valid : ∀ entry ∈ [(⟨[97], 2⟩ : Dirent), ⟨[49, 32, 10], 2147483647⟩], entry.Valid := by
    intro entry member
    rcases List.mem_cons.mp member with rfl | later
    · exact ⟨by decide, by decide, by decide⟩
    · obtain rfl := List.mem_singleton.mp later
      exact ⟨by decide, by decide, by decide⟩
  exact directory_text_round_trip.1 _ valid 40 (by decide)

end Yfs
