import Mathlib.Algebra.BigOperators.Group.List.Basic
import Mathlib.Algebra.GroupWithZero.Nat
import Mathlib.Data.List.TakeDrop

/-!
# Listings sent in pages

A server sends a list of records as one stream of bytes, from any offset and cut to any
size, so that a page may end inside a record.  Each record carries the offset of the next
one as its cookie.  A reader keeps the whole records of a page and asks next at the cookie
of the last of them, until a page is empty.  It receives every record once.
-/

namespace Paging

/-- How records are written, with their cookies, and read. -/
structure Format (Item Byte : Type) where
  size : Item → Nat
  encode : Item → Nat → List Byte
  decode : List Byte → Option (Item × Nat)

namespace Format

variable {Item Byte : Type}

/-- Valid records with cookies below the limit are read back, and a record that is cut
short is not read. -/
structure Lawful (format : Format Item Byte) (Valid : Item → Prop) (limit : Nat) : Prop where
  size_pos : ∀ item, 0 < format.size item
  length_encode : ∀ item cookie, (format.encode item cookie).length = format.size item
  decode_nil : format.decode [] = none
  decode_encode : ∀ item cookie rest, Valid item → cookie < limit →
    format.decode (format.encode item cookie ++ rest) = some (item, cookie)
  decode_take : ∀ item cookie count, Valid item → count < format.size item →
    format.decode ((format.encode item cookie).take count) = none

/-- The items from offset `off` on, each with the offset of the next. -/
def stamped (format : Format Item Byte) : Nat → List Item → List (Item × Nat)
  | _, [] => []
  | off, item :: rest =>
      (item, off + format.size item) :: format.stamped (off + format.size item) rest

/-- The stream of the items. -/
def stream (format : Format Item Byte) (off : Nat) (items : List Item) : List Byte :=
  (format.stamped off items).flatMap fun record => format.encode record.1 record.2

def total (format : Format Item Byte) (items : List Item) : Nat :=
  (items.map format.size).sum

/-- The records at the head of a page, at most `count` of them. -/
def records (format : Format Item Byte) : Nat → List Byte → List (Item × Nat)
  | 0, _ => []
  | count + 1, bytes =>
      match format.decode bytes with
      | some (item, cookie) =>
          (item, cookie) :: format.records count (bytes.drop (format.size item))
      | none => []

/-- The whole records of a page. -/
def whole (format : Format Item Byte) (bytes : List Byte) : List (Item × Nat) :=
  format.records bytes.length bytes

/-- The cookie of the last record. -/
def nextOffset (off : Nat) (received : List (Item × Nat)) : Nat :=
  (received.getLast?.map Prod.snd).getD off

/-- The reader, with at most `fuel` requests.  A request is told its turn, for the server
may have changed since the last one. -/
def readPages (format : Format Item Byte) (request : Nat → Nat → Option (List Byte)) :
    Nat → Nat → Nat → Option (List Item)
  | 0, _, _ => none
  | fuel + 1, turn, off =>
      match request turn off with
      | none => none
      | some [] => some []
      | some bytes =>
          let received := format.whole bytes
          (format.readPages request fuel (turn + 1) (nextOffset off received)).map
            (received.map Prod.fst ++ ·)

section Stamps

variable (format : Format Item Byte)

theorem total_cons (item : Item) (rest : List Item) :
    format.total (item :: rest) = format.size item + format.total rest := by
  rw [total, List.map_cons, List.sum_cons, total]

theorem total_append (first second : List Item) :
    format.total (first ++ second) = format.total first + format.total second := by
  rw [total, List.map_append, List.sum_append, total, total]

@[simp]
theorem stream_nil (off : Nat) : format.stream off [] = [] :=
  rfl

theorem stream_cons (off : Nat) (item : Item) (rest : List Item) :
    format.stream off (item :: rest) =
      format.encode item (off + format.size item) ++
        format.stream (off + format.size item) rest := by
  rw [stream, stamped, List.flatMap_cons, stream]

theorem stream_append (off : Nat) (first second : List Item) :
    format.stream off (first ++ second) =
      format.stream off first ++ format.stream (off + format.total first) second := by
  induction first generalizing off with
  | nil => rfl
  | cons item rest ih =>
      rw [List.cons_append, stream_cons, ih, stream_cons, total_cons, List.append_assoc,
        Nat.add_assoc]

/-- A change of the items that the records do not show. -/
theorem stream_map (change : Item → Item)
    (size : ∀ item, format.size (change item) = format.size item)
    (encode : ∀ item cookie, format.encode (change item) cookie = format.encode item cookie)
    (off : Nat) (items : List Item) :
    format.stream off (items.map change) = format.stream off items := by
  induction items generalizing off with
  | nil => rfl
  | cons item rest ih => rw [List.map_cons, stream_cons, size, encode, ih, stream_cons]

theorem map_fst_stamped (off : Nat) (items : List Item) :
    (format.stamped off items).map Prod.fst = items := by
  induction items generalizing off with
  | nil => rfl
  | cons item rest ih => rw [stamped, List.map_cons, ih]

theorem nextOffset_cons (off : Nat) (record : Item × Nat) (rest : List (Item × Nat)) :
    nextOffset off (record :: rest) = nextOffset record.2 rest := by
  rw [nextOffset, nextOffset, List.getLast?_cons]
  cases rest.getLast? with
  | none => rfl
  | some last => rfl

/-- The last cookie is the end of the stream. -/
theorem nextOffset_stamped (off : Nat) (items : List Item) :
    nextOffset off (format.stamped off items) = off + format.total items := by
  induction items generalizing off with
  | nil => rfl
  | cons item rest ih => rw [stamped, nextOffset_cons, ih, total_cons, Nat.add_assoc]

end Stamps

namespace Lawful

variable {format : Format Item Byte} {Valid : Item → Prop} {limit : Nat}

theorem length_stream (lawful : format.Lawful Valid limit) (off : Nat) (items : List Item) :
    (format.stream off items).length = format.total items := by
  induction items generalizing off with
  | nil => rfl
  | cons item rest ih =>
      rw [stream_cons, List.length_append, lawful.length_encode, ih, total_cons]

/-- A stream from the offset of one of its records. -/
theorem drop_stream (lawful : format.Lawful Valid limit) (done rest : List Item) :
    (format.stream 0 (done ++ rest)).drop (format.total done) =
      format.stream (format.total done) rest := by
  rw [stream_append, Nat.zero_add, ← lawful.length_stream 0 done, List.drop_left]

/-- The whole records of a page are the first items of the stream. -/
theorem records_take (lawful : format.Lawful Valid limit) (count page off : Nat)
    (items : List Item) (valid : ∀ item ∈ items, Valid item)
    (bounded : off + format.total items < limit) :
    ∃ front back, items = front ++ back ∧
      format.records count ((format.stream off items).take page) =
        format.stamped off front ∧
      (0 < count → ∀ item ∈ items.head?, format.size item ≤ page → front ≠ []) := by
  induction items generalizing count page off with
  | nil =>
      refine ⟨[], [], rfl, ?_, fun _ item isHead => by cases isHead⟩
      cases count with
      | zero => rfl
      | succ count => rw [stream_nil, List.take_nil, records, lawful.decode_nil]; rfl
  | cons item rest ih =>
      have isValid := valid item List.mem_cons_self
      have length := lawful.length_encode item (off + format.size item)
      rw [total_cons] at bounded
      cases count with
      | zero => exact ⟨[], item :: rest, rfl, rfl, fun positive => absurd positive (by decide)⟩
      | succ count =>
          rw [stream_cons, records]
          by_cases fits : format.size item ≤ page
          · -- the first record is whole
            obtain ⟨front, back, split, reads, -⟩ :=
              ih count (page - format.size item) (off + format.size item)
                (fun other member => valid other (List.mem_cons_of_mem _ member)) (by omega)
            refine ⟨item :: front, back, by rw [split, List.cons_append], ?_,
              fun _ _ _ _ => List.cons_ne_nil _ _⟩
            rw [List.take_append, List.take_of_length_le (by omega), length,
              lawful.decode_encode _ _ _ isValid (by omega)]
            dsimp only
            rw [List.drop_left' length, reads, stamped]
          · -- the page ends inside the first record
            refine ⟨[], item :: rest, rfl, ?_, fun _ other isHead small => ?_⟩
            · rw [List.take_append_of_le_length (by omega),
                lawful.decode_take _ _ _ isValid (Nat.lt_of_not_le fits)]
              rfl
            · cases Option.mem_some.mp isHead
              exact absurd small fits

/-- A page that is not behind the last record holds a whole record. -/
theorem whole_take (lawful : format.Lawful Valid limit) {page off : Nat} {item : Item}
    {rest : List Item} (valid : ∀ other ∈ item :: rest, Valid other)
    (fits : format.size item ≤ page) (bounded : off + format.total (item :: rest) < limit) :
    ∃ front back byte bytes, item :: rest = front ++ back ∧ front ≠ [] ∧
      (format.stream off (item :: rest)).take page = byte :: bytes ∧
      format.whole (byte :: bytes) = format.stamped off front := by
  have positive := lawful.size_pos item
  have length : 0 < ((format.stream off (item :: rest)).take page).length := by
    rw [List.length_take, lawful.length_stream, total_cons]
    omega
  obtain ⟨front, back, split, reads, progress⟩ :=
    lawful.records_take _ page off (item :: rest) valid bounded
  obtain ⟨byte, bytes, content⟩ := List.exists_cons_of_length_pos length
  refine ⟨front, back, byte, bytes, split, progress length item rfl fits, content, ?_⟩
  rw [← content]
  exact reads

/-- From the offset of a record the reader receives the rest. -/
theorem readPages_from (lawful : format.Lawful Valid limit) {items : List Item} {page : Nat}
    (valid : ∀ item ∈ items, Valid item) (fits : ∀ item ∈ items, format.size item ≤ page)
    (bounded : format.total items < limit) {request : Nat → Nat → Option (List Byte)}
    (serves : ∀ turn off, off < limit →
      request turn off = some (((format.stream 0 items).drop off).take page))
    (fuel turn : Nat) (done rest : List Item) (split : items = done ++ rest)
    (enough : rest.length < fuel) :
    format.readPages request fuel turn (format.total done) = some rest := by
  induction fuel generalizing turn done rest with
  | zero => exact absurd enough (Nat.not_lt_zero _)
  | succ fuel ih =>
      have sum : format.total items = format.total done + format.total rest := by
        rw [split, total_append]
      have reply := serves turn (format.total done) (by omega)
      rw [split, lawful.drop_stream] at reply
      unfold readPages
      cases rest with
      | nil => rw [reply, stream_nil, List.take_nil]
      | cons item more =>
          have inItems : ∀ other ∈ item :: more, other ∈ items := fun other member =>
            split ▸ List.mem_append_right _ member
          obtain ⟨front, back, byte, bytes, cut, nonempty, page, received⟩ := lawful.whole_take
            (fun other member => valid other (inItems other member))
            (fits item (inItems item List.mem_cons_self)) (sum ▸ bounded)
          have lengths := congrArg List.length cut
          have positive := List.length_pos_iff.mpr nonempty
          rw [List.length_append] at lengths
          have later := ih (turn + 1) (done ++ front) back
            (by rw [split, cut, List.append_assoc]) (by omega)
          rw [reply, page]
          dsimp only
          rw [received, nextOffset_stamped, map_fst_stamped, ← total_append, later, cut]
          rfl

/-- With more requests than records the reader receives exactly the records. -/
theorem readPages_eq (lawful : format.Lawful Valid limit) {items : List Item} {page : Nat}
    (valid : ∀ item ∈ items, Valid item) (fits : ∀ item ∈ items, format.size item ≤ page)
    (bounded : format.total items < limit) {request : Nat → Nat → Option (List Byte)}
    (serves : ∀ turn off, off < limit →
      request turn off = some (((format.stream 0 items).drop off).take page))
    {fuel : Nat} (enough : items.length < fuel) :
    format.readPages request fuel 0 0 = some items :=
  lawful.readPages_from valid fits bounded serves fuel 0 [] items rfl enough

end Lawful

end Format

end Paging
