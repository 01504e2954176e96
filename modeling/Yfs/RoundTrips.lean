import Yfs.Marshall

/-!
# What is marshalled is read back

Vectors, maps, attributes and whole messages with their headers come back as they were
written, provided that numbers and strings do; what is cut short is noticed.
-/

namespace Yfs

open Wire
open Std (ExtTreeMap ReflCmp TransCmp LawfulEqCmp)

section Containers

variable {operators : Operators} {A B C : Type}

theorem toNat_ofNat_length {length : Nat} (short : length < 2 ^ 32) :
    (BitVec.ofNat 32 length).toNat = length := by
  rw [BitVec.toNat_ofNat, Nat.mod_eq_of_lt short]

/-- The elements are appended to what the vector holds. -/
theorem getVector_parses (lawful : operators.Lawful) {item : Codec Byte C} {xs : List C}
    (carries : ∀ x ∈ xs, item.Carries x) (short : xs.length < 2 ^ 32) (v : List C) :
    Parses (getVector operators item v) (putVector operators item xs) (v ++ xs) := by
  apply (lawful.unsignedInt _).andThen
  · rw [toNat_ofNat_length short]
    have pushed : Parses (Reader.times (getItem item) xs.length v) (xs.flatMap item.write)
        (xs.foldl (fun v x => v ++ [x]) v) :=
      .times (fun x member v => (carries x member).map fun z => v ++ [z])
        (fun v => item.sticky.map _) v
    have appended : xs.foldl (fun v x => v ++ [x]) v = v ++ xs := by
      rw [List.foldl_append_eq_append, ← List.flatMap_def, List.flatMap_singleton']
    rwa [appended] at pushed
  · intro n
    exact Reader.Sticky.times (fun v => item.sticky.map _) n.toNat v

theorem vector_carries (lawful : operators.Lawful) {item : Codec Byte C} {xs : List C}
    (carries : ∀ x ∈ xs, item.Carries x) (short : xs.length < 2 ^ 32) :
    (vector operators item).Carries xs :=
  getVector_parses lawful carries short []

variable {cmp : A → A → Ordering} [TransCmp cmp] [LawfulEqCmp cmp]

/-- Inserting the entries of a map into an empty one gives the map again. -/
theorem foldl_insert_toList (d : ExtTreeMap A B cmp) :
    d.toList.foldl (fun d entry => d.insert entry.1 entry.2) ∅ = d := by
  rw [← ExtTreeMap.insertMany_list_eq_foldl]
  classical
  apply ExtTreeMap.ext_getElem?
  intro k
  cases found : d[k]? with
  | some b =>
      exact ExtTreeMap.getElem?_insertMany_list_of_mem ReflCmp.compare_self
        ExtTreeMap.distinct_keys_toList (ExtTreeMap.mem_toList_iff_getElem?_eq_some.mpr found)
  | none =>
      rw [ExtTreeMap.getElem?_insertMany_list_of_contains_eq_false]
      · exact ExtTreeMap.getElem?_empty
      · rw [Bool.eq_false_iff]
        intro isKey
        obtain ⟨⟨key, b⟩, member, rfl⟩ := List.mem_map.mp (List.contains_iff_mem.mp isKey)
        rw [ExtTreeMap.mem_toList_iff_getElem?_eq_some, found] at member
        cases member

/-- The map becomes the one that was written, whatever it held before. -/
theorem getMap_parses (lawful : operators.Lawful) {key : Codec Byte A} {value : Codec Byte B}
    {d : ExtTreeMap A B cmp}
    (carries : ∀ entry ∈ d.toList, key.Carries entry.1 ∧ value.Carries entry.2)
    (short : d.size < 2 ^ 32) (before : ExtTreeMap A B cmp) :
    Parses (getMap operators key value before) (putMap operators key value d) d := by
  have sticky : ∀ d : ExtTreeMap A B cmp, (getEntry key value d).Sticky :=
    fun d => key.sticky.andThen fun a => value.sticky.map _
  have each : ∀ entry ∈ d.toList, ∀ d : ExtTreeMap A B cmp,
      Parses (getEntry key value d) (putEntry key value entry) (d.insert entry.1 entry.2) :=
    fun entry member d => (carries entry member).1.andThen
      ((carries entry member).2.map fun b => d.insert entry.1 b) fun a => value.sticky.map _
  apply (lawful.unsignedInt _).andThen
  · rw [toNat_ofNat_length short, ← ExtTreeMap.length_toList]
    have inserted := Parses.times each sticky ∅
    rwa [foldl_insert_toList] at inserted
  · intro n
    exact Reader.Sticky.times sticky n.toNat ∅

theorem attr_carries (lawful : operators.Lawful) (a : Attr) : (attr operators).Carries a := by
  have field := lawful.unsignedInt
  have fields := (field a.type).pair ((field a.atime).pair ((field a.mtime).pair
    ((field a.ctime).pair (field a.size))))
  rw [attr]
  apply Codec.Carries.through
  · exact fields
  · rfl

end Containers

section BigEndian

/-- One byte, if there is one. -/
def rawbyte : Codec Byte Byte where
  write b := [b]
  read
    | ⟨b :: rest, ok⟩ => (b, ⟨rest, ok⟩)
    | ⟨[], _⟩ => (0, ⟨[], false⟩)
  sticky := by
    rintro ⟨_ | ⟨b, rest⟩, ok⟩ failed
    · rfl
    · exact failed

theorem rawbyte_carries (b : Byte) : rawbyte.Carries b where
  whole := fun _ => rfl
  truncated := by
    intro part isPart isShort
    rcases List.prefix_cons_iff.mp isPart with rfl | ⟨later, rfl, inLater⟩
    · rfl
    · rw [List.prefix_nil.mp inLater] at isShort
      exact absurd rfl isShort

/-- Four bytes, the most significant one first. -/
def bigEndian32 : Codec Byte (BitVec 32) :=
  (rawbyte.pair (rawbyte.pair (rawbyte.pair rawbyte))).through
    (fun (a, b, c, d) => a ++ (b ++ (c ++ d)))
    (fun n => (n.extractLsb' 24 8, n.extractLsb' 16 8, n.extractLsb' 8 8, n.extractLsb' 0 8))

theorem bigEndian32_carries (n : BitVec 32) : bigEndian32.Carries n := by
  rw [bigEndian32]
  apply Codec.Carries.through
  · exact (rawbyte_carries _).pair
      ((rawbyte_carries _).pair ((rawbyte_carries _).pair (rawbyte_carries _)))
  · apply BitVec.eq_of_getLsbD_eq
    intro i isBit
    simp only [BitVec.getLsbD_append, BitVec.getLsbD_extractLsb']
    grind

def bigEndian64 : Codec Byte (BitVec 64) :=
  (bigEndian32.pair bigEndian32).through (fun (high, low) => high ++ low)
    (fun n => (n.extractLsb' 32 32, n.extractLsb' 0 32))

theorem bigEndian64_carries (n : BitVec 64) : bigEndian64.Carries n := by
  rw [bigEndian64]
  apply Codec.Carries.through
  · exact (bigEndian32_carries _).pair (bigEndian32_carries _)
  · apply BitVec.eq_of_getLsbD_eq
    intro i isBit
    simp only [BitVec.getLsbD_append, BitVec.getLsbD_extractLsb']
    grind

/-- `n` bytes, if there are as many and no read has failed. -/
def rawbytes (n : BitVec 32) : Reader Byte (List Byte) := fun input =>
  if input.ok then
    if n.toNat ≤ input.rest.length then
      (input.rest.take n.toNat, ⟨input.rest.drop n.toNat, true⟩)
    else ([], ⟨input.rest, false⟩)
  else ([], input)

theorem rawbytes_sticky (n : BitVec 32) : (rawbytes n).Sticky := by
  intro input failed
  rw [rawbytes, failed]
  exact failed

/-- The length and the bytes. -/
def bigEndianString : Codec Byte (List Byte) where
  write s := bigEndian32.write (BitVec.ofNat 32 s.length) ++ s
  read := bigEndian32.read.andThen rawbytes
  sticky := bigEndian32.sticky.andThen rawbytes_sticky

theorem bigEndianString_carries {s : List Byte} (short : s.length ≤ maxString) :
    bigEndianString.Carries s := by
  have length : (BitVec.ofNat 32 s.length).toNat = s.length :=
    toNat_ofNat_length (short.trans_lt (by decide))
  apply (bigEndian32_carries _).andThen _ rawbytes_sticky
  constructor
  · intro rest
    simp [rawbytes, length]
  · intro part isPart isShort
    have shorter : ¬s.length ≤ part.length :=
      fun long => isShort (isPart.eq_of_length_le long)
    simp [rawbytes, length, shorter]

/-- The operators as the library has them. -/
def bigEndian : Operators where
  pack := bigEndian32
  int := bigEndian32
  unsignedInt := bigEndian32
  unsignedLongLong := bigEndian64
  string := bigEndianString

theorem bigEndian_lawful : bigEndian.Lawful where
  pack := bigEndian32_carries
  int := bigEndian32_carries
  unsignedInt := bigEndian32_carries
  unsignedLongLong := bigEndian64_carries
  string := fun _ => bigEndianString_carries
  length_pack := fun _ => rfl

end BigEndian

section Containers

variable {operators : Operators} {A B C : Type}

/-- A vector is read back behind what the destination holds, whatever comes after it; a
vector that is cut short anywhere is noticed. -/
theorem vector_read_back (lawful : operators.Lawful) {item : Codec Byte C} {xs : List C}
    (carries : ∀ x ∈ xs, item.Carries x) (short : xs.length < 2 ^ 32) (v : List C) :
    (∀ rest, getVector operators item v ⟨putVector operators item xs ++ rest, true⟩ =
        (v ++ xs, ⟨rest, true⟩)) ∧
      ∀ part, part <+: putVector operators item xs → part ≠ putVector operators item xs →
        (getVector operators item v ⟨part, true⟩).2.ok = false := by
  have parses := getVector_parses lawful carries short v
  exact ⟨parses.whole, parses.truncated⟩

theorem attributes_read_back :
    (∀ rest, getVector bigEndian (attr bigEndian) [⟨2, 3, 5, 5, 7⟩]
        ⟨putVector bigEndian (attr bigEndian) [⟨1, 4, 4, 4, 300⟩, Attr.zero] ++ rest, true⟩ =
      ([⟨2, 3, 5, 5, 7⟩, ⟨1, 4, 4, 4, 300⟩, Attr.zero], ⟨rest, true⟩)) ∧
    ∀ part, part <+: putVector bigEndian (attr bigEndian) [⟨1, 4, 4, 4, 300⟩, Attr.zero] →
      part ≠ putVector bigEndian (attr bigEndian) [⟨1, 4, 4, 4, 300⟩, Attr.zero] →
        (getVector bigEndian (attr bigEndian) [⟨2, 3, 5, 5, 7⟩] ⟨part, true⟩).2.ok = false :=
  vector_read_back bigEndian_lawful (fun a _ => attr_carries bigEndian_lawful a) (by decide) _

variable {cmp : A → A → Ordering} [TransCmp cmp] [LawfulEqCmp cmp]

/-- A map is read back whatever the destination held before and whatever comes after it; a
map that is cut short anywhere is noticed. -/
theorem map_read_back (lawful : operators.Lawful) {key : Codec Byte A} {value : Codec Byte B}
    {d : ExtTreeMap A B cmp}
    (carries : ∀ entry ∈ d.toList, key.Carries entry.1 ∧ value.Carries entry.2)
    (short : d.size < 2 ^ 32) (before : ExtTreeMap A B cmp) :
    (∀ rest, getMap operators key value before ⟨putMap operators key value d ++ rest, true⟩ =
        (d, ⟨rest, true⟩)) ∧
      ∀ part, part <+: putMap operators key value d → part ≠ putMap operators key value d →
        (getMap operators key value before ⟨part, true⟩).2.ok = false := by
  have parses := getMap_parses lawful carries short before
  exact ⟨parses.whole, parses.truncated⟩

/-- A map from names to lists of numbers. -/
def owners : ExtTreeMap (List Byte) (List (BitVec 32)) compare :=
  (∅ : ExtTreeMap (List Byte) (List (BitVec 32)) compare).insert [102] [7, 9]

theorem owners_read_back :
    (∀ rest, getMap bigEndian bigEndianString (vector bigEndian bigEndian32) owners
        ⟨putMap bigEndian bigEndianString (vector bigEndian bigEndian32) owners ++ rest, true⟩ =
      (owners, ⟨rest, true⟩)) ∧
    ∀ part, part <+: putMap bigEndian bigEndianString (vector bigEndian bigEndian32) owners →
      part ≠ putMap bigEndian bigEndianString (vector bigEndian bigEndian32) owners →
        (getMap bigEndian bigEndianString (vector bigEndian bigEndian32) owners
          ⟨part, true⟩).2.ok = false := by
  have carries : ∀ entry ∈ owners.toList, bigEndianString.Carries entry.1 ∧
      (vector bigEndian bigEndian32).Carries entry.2 := by
    rintro ⟨name, numbers⟩ member
    rw [ExtTreeMap.mem_toList_iff_getElem?_eq_some, owners, ExtTreeMap.getElem?_insert]
      at member
    split at member
    · rename_i same
      cases LawfulEqCmp.eq_of_compare same
      cases member
      exact ⟨bigEndianString_carries (by decide),
        vector_carries bigEndian_lawful (fun n _ => bigEndian32_carries n) (by decide)⟩
    · simp at member
  exact map_read_back bigEndian_lawful carries (by simp [owners, ExtTreeMap.size_insert]) owners

end Containers

section Messages

section Store

variable {buf bytes : List Byte} {ind stop : Nat}

theorem take_store (inside : ind ≤ buf.length) :
    (store buf ind bytes).take (ind + bytes.length) = buf.take ind ++ bytes := by
  have length : (buf.take ind ++ bytes).length = ind + bytes.length := by
    rw [List.length_append, List.length_take_of_le inside]
  rw [store, ← length, List.take_left]

theorem drop_store (inside : ind ≤ buf.length) :
    (store buf ind bytes).drop ind = bytes ++ buf.drop (ind + bytes.length) := by
  rw [store, List.append_assoc]
  exact List.drop_left' (List.length_take_of_le inside)

/-- Storing inside a part of the buffer. -/
theorem take_store_of_le (inside : stop ≤ buf.length) (fits : ind + bytes.length ≤ stop) :
    (store buf ind bytes).take stop = store (buf.take stop) ind bytes := by
  have length : (buf.take ind ++ bytes).length = ind + bytes.length := by
    rw [List.length_append, List.length_take_of_le (by omega)]
  rw [store, store, List.take_append, List.take_of_length_le (by omega), List.take_take,
    Nat.min_eq_left (by omega), length, List.drop_take]

/-- Storing changes nothing behind what is stored. -/
theorem drop_store_of_le (inside : ind ≤ buf.length) (behind : ind + bytes.length ≤ stop) :
    (store buf ind bytes).drop stop = buf.drop stop := by
  have length : (buf.take ind ++ bytes).length = ind + bytes.length := by
    rw [List.length_append, List.length_take_of_le inside]
  rw [store, List.drop_append, List.drop_eq_nil_of_le (by omega), List.nil_append, length,
    List.drop_drop]
  congr 1
  omega

end Store

variable {operators : Operators}

theorem reqHeader_carries (lawful : operators.Lawful) (h : ReqHeader) :
    (reqHeader operators).Carries h := by
  have pack := lawful.pack
  have fields := (pack h.xid).pair ((pack h.proc).pair ((pack h.cltNonce).pair
    ((pack h.srvNonce).pair (pack h.xidRep))))
  rw [reqHeader]
  apply Codec.Carries.through
  · exact fields
  · rfl

theorem replyHeader_carries (lawful : operators.Lawful) (h : ReplyHeader) :
    (replyHeader operators).Carries h := by
  have fields := (lawful.pack h.xid).pair (lawful.pack h.ret)
  rw [replyHeader]
  apply Codec.Carries.through
  · exact fields
  · rfl

theorem length_reqHeader (lawful : operators.Lawful) (h : ReqHeader) :
    ((reqHeader operators).write h).length = reqHeaderSize := by
  simp only [reqHeader, Codec.through, Codec.pair, List.length_append, lawful.length_pack]

theorem length_replyHeader (lawful : operators.Lawful) (h : ReplyHeader) :
    ((replyHeader operators).write h).length = replyHeaderSize := by
  simp only [replyHeader, Codec.through, Codec.pair, List.length_append, lawful.length_pack]

namespace Marshall

variable {A H : Type}

theorem getContent_eq (m : Marshall) : m.getContent = m.takeBuf.drop rpcHeaderSz :=
  List.drop_take.symm

theorem length_takeBuf (m : Marshall) : m.takeBuf.length = m.ind :=
  List.length_take_of_le m.inside

/-- A new object has no content. -/
theorem getContent_new (malloc : Fin defaultRpcSz → Byte) : (new malloc).getContent = [] := by
  rw [getContent, new, Nat.sub_self, List.take_zero]

/-- `<<` appends to the content. -/
theorem getContent_put (m : Marshall) (codec : Codec Byte A) (a : A) :
    (m.put codec a).getContent = m.getContent ++ codec.write a := by
  have appended : (m.put codec a).takeBuf = m.takeBuf ++ codec.write a := take_store m.inside
  have header := m.header
  rw [← m.length_takeBuf] at header
  rw [getContent_eq, getContent_eq, appended, List.drop_append_of_le_length header]

variable {m : Marshall} {codec : Codec Byte H} {h : H}

theorem takeBuf_packHeader (fits : rpcSzSize + (codec.write h).length ≤ rpcHeaderSz) :
    (m.packHeader codec h).takeBuf = store m.takeBuf rpcSzSize (codec.write h) :=
  take_store_of_le m.inside (fits.trans m.header)

theorem rpcSzSize_le_takeBuf (m : Marshall) : rpcSzSize ≤ m.takeBuf.length := by
  rw [length_takeBuf]
  exact le_trans (by decide) m.header

/-- The header lies before the content. -/
theorem getContent_packHeader (fits : rpcSzSize + (codec.write h).length ≤ rpcHeaderSz) :
    (m.packHeader codec h).getContent = m.getContent := by
  rw [getContent_eq, getContent_eq, takeBuf_packHeader fits,
    drop_store_of_le m.rpcSzSize_le_takeBuf fits]

end Marshall

/-- What arrives when the channel has filled the first bytes with the size. -/
def Arrives (sent message : List Byte) : Prop :=
  message.length = sent.length ∧ message.drop rpcSzSize = sent.drop rpcSzSize

namespace Unmarshall

variable {A H : Type} {args : Codec Byte A} {a : A}

theorem okdone_get (u : Unmarshall) (args : Codec Byte A) :
    (u.get args).2.okdone = ((args.read u.input).2.ok &&
      decide (u.buf.length - (args.read u.input).2.rest.length = u.buf.length)) :=
  rfl

/-- The value is all there is. -/
theorem get_of_content {u : Unmarshall} (carries : args.Carries a)
    (content : u.input = ⟨args.write a, true⟩) :
    (u.get args).1 = a ∧ (u.get args).2.okdone = true := by
  rw [get, content, carries.done]
  exact ⟨rfl, decide_eq_true rfl⟩

/-- The header comes back, and leaves the content to be read. -/
theorem unpackHeader_arrives {header : Codec Byte H} {h : H} {m : Marshall}
    {message : List Byte} (carries : header.Carries h)
    (fits : rpcSzSize + (header.write h).length ≤ rpcHeaderSz)
    (arrives : Arrives (m.packHeader header h).takeBuf message) :
    ((ofBuf message).unpackHeader header).1 = h ∧
      ((ofBuf message).unpackHeader header).2.input = ⟨m.getContent, true⟩ := by
  have front : message.drop rpcSzSize =
      header.write h ++ m.takeBuf.drop (rpcSzSize + (header.write h).length) := by
    rw [arrives.2, Marshall.takeBuf_packHeader fits, drop_store m.rpcSzSize_le_takeBuf]
  have back : message.drop rpcHeaderSz = m.getContent := by
    have split : rpcHeaderSz = rpcSzSize + reqHeaderSize := rfl
    rw [split, ← List.drop_drop, arrives.2, List.drop_drop, ← split, ← Marshall.getContent_eq,
      Marshall.getContent_packHeader fits]
  have read := carries.whole (m.takeBuf.drop (rpcSzSize + (header.write h).length))
  rw [← front] at read
  simp only [unpackHeader, get, input, ofBuf, read, back, and_self]

end Unmarshall

/-- A request or a reply with any header and content is read back as it was written, and
nothing is left. -/
theorem messages_read_back (lawful : operators.Lawful) {A : Type} {args : Codec Byte A} {a : A}
    (carries : args.Carries a) (m : Marshall) (content : m.getContent = args.write a)
    (message : List Byte) :
    (∀ h : ReqHeader, Arrives (m.packReqHeader operators h).takeBuf message →
      let (header, u) := (Unmarshall.ofBuf message).unpackReqHeader operators
      header = h ∧ (u.get args).1 = a ∧ (u.get args).2.okdone = true) ∧
    ∀ h : ReplyHeader, Arrives (m.packReplyHeader operators h).takeBuf message →
      let (header, u) := (Unmarshall.ofBuf message).unpackReplyHeader operators
      header = h ∧ (u.get args).1 = a ∧ (u.get args).2.okdone = true := by
  constructor
  · intro h arrives
    have fits : rpcSzSize + ((reqHeader operators).write h).length ≤ rpcHeaderSz := by
      rw [length_reqHeader lawful]
      decide
    obtain ⟨header, input⟩ :=
      Unmarshall.unpackHeader_arrives (reqHeader_carries lawful h) fits arrives
    rw [content] at input
    exact ⟨header, Unmarshall.get_of_content carries input⟩
  · intro h arrives
    have fits : rpcSzSize + ((replyHeader operators).write h).length ≤ rpcHeaderSz := by
      rw [length_replyHeader lawful]
      decide
    obtain ⟨header, input⟩ :=
      Unmarshall.unpackHeader_arrives (replyHeader_carries lawful h) fits arrives
    rw [content] at input
    exact ⟨header, Unmarshall.get_of_content carries input⟩

/-- A request for `put` of the extent protocol. -/
def putRequest : Marshall :=
  ((Marshall.new fun _ => 0).put bigEndian64 1).put bigEndianString [104, 105]

theorem put_read_back :
    let message := (putRequest.packReqHeader bigEndian ⟨1, 0x6001, 7, 9, 0⟩).takeBuf
    let (header, u) := (Unmarshall.ofBuf message).unpackReqHeader bigEndian
    header = ⟨1, 0x6001, 7, 9, 0⟩ ∧
      (u.get (bigEndian64.pair bigEndianString)).1 = (1, [104, 105]) ∧
      (u.get (bigEndian64.pair bigEndianString)).2.okdone = true := by
  have carries : (bigEndian64.pair bigEndianString).Carries (1, [104, 105]) :=
    (bigEndian64_carries 1).pair (bigEndianString_carries (by decide))
  have content : putRequest.getContent =
      (bigEndian64.pair bigEndianString).write (1, [104, 105]) := by
    rw [putRequest, Marshall.getContent_put, Marshall.getContent_put, Marshall.getContent_new]
    rfl
  exact (messages_read_back bigEndian_lawful carries putRequest content _).1
    ⟨1, 0x6001, 7, 9, 0⟩ ⟨rfl, rfl⟩

end Messages

end Yfs
