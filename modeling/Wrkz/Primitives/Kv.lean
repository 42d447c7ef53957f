import Wrkz.Library.Fallible
import Wrkz.Primitives.Serial

/-!
The key-value encoding of messages: a header and a section of named values. A reader
bounds every count by the bytes that are left and by a budget for the whole document.
Names are their UTF-8 bytes.
-/

set_option autoImplicit false

namespace Wrkz

open Library List

namespace Kv

def header : Bytes := [0x01,0x11,0x01,0x01,0x01,0x01,0x02,0x01,0x01]

def typeInt64 : UInt8 := 1
def typeInt32 : UInt8 := 2
def typeInt16 : UInt8 := 3
def typeInt8 : UInt8 := 4
def typeUint64 : UInt8 := 5
def typeUint32 : UInt8 := 6
def typeUint16 : UInt8 := 7
def typeUint8 : UInt8 := 8
def typeDouble : UInt8 := 9
def typeString : UInt8 := 10
def typeBool : UInt8 := 11
def typeObject : UInt8 := 12
def typeArray : UInt8 := 13
def arrayFlag : UInt8 := 0x80

def maxDepth : Nat := 32
def maxValues : Nat := 1000000
def minEntryBytes : Nat := 4

/-- A double is its eight bytes. -/
inductive Value where
  | int (v : Int) (type : UInt8)
  | uint (v : Nat) (type : UInt8)
  | double (v : ByteVec 8)
  | string (v : Bytes)
  | bool (v : Bool)
  | object (entries : List (Bytes × Value))
  | array (items : List Value)

abbrev Section := List (Bytes × Value)

def name (s : String) : Bytes := s.toList.map fun c => UInt8.ofNat c.toNat

namespace Section

def get (s : Section) (key : Bytes) : Option Value :=
  (s.find? fun e => e.1 = key).map Prod.snd

def getU64 (s : Section) (key : Bytes) : Option Nat :=
  match s.get key with
  | some (.uint v _) => some v
  | some (.int v _) => some (v % 2^64).toNat
  | _ => none

def getBytes (s : Section) (key : Bytes) : Option Bytes :=
  match s.get key with
  | some (.string v) => some v
  | _ => none

def u32 (s : Section) (key : Bytes) (v : Nat) : Section := s ++ [(key,.uint v typeUint32)]

def string (s : Section) (key : Bytes) (v : Bytes) : Section :=
  if v = [] then s else s ++ [(key,.string v)]

end Section

/-- The low `width` bytes, lowest first. -/
def littleEndian : Nat → Nat → Bytes
  | 0, _ => []
  | width+1, v => UInt8.ofNat v :: littleEndian width (v / 256)

def ofLittleEndian (b : Bytes) : Nat := b.foldr (fun b acc => b.toNat + 256*acc) 0

def writeVarint (v : Nat) : Bytes :=
  if v ≤ 63 then littleEndian 1 (v*4)
  else if v ≤ 16383 then littleEndian 2 (v*4+1)
  else if v < 2^30 then littleEndian 4 (v*4+2)
  else littleEndian 8 (v*4+3)

def intWidth (type : UInt8) : Nat :=
  if type = typeUint8 ∨ type = typeInt8 then 1
  else if type = typeUint16 ∨ type = typeInt16 then 2
  else if type = typeUint32 ∨ type = typeInt32 then 4
  else 8

def typeOf : Value → UInt8
  | .uint _ type | .int _ type => type
  | .double _ => typeDouble
  | .string _ => typeString
  | .bool _ => typeBool
  | .object _ => typeObject
  | .array _ => typeArray

def tagOf : Value → UInt8
  | .array items => (items.head?.map typeOf).getD typeString ||| arrayFlag
  | v => typeOf v

mutual

def writeScalar : Value → Bytes
  | .uint v type => littleEndian (intWidth type) v
  | .int v type => littleEndian (intWidth type) (v % 2^64).toNat
  | .double v => v.bytes
  | .string v => writeVarint v.length ++ v
  | .bool v => [if v then 1 else 0]
  | .object entries => writeVarint entries.length ++ writeEntries entries
  | .array items => writeVarint items.length ++ writeItems items

def writeItems : List Value → Bytes
  | [] => []
  | v :: items => writeScalar v ++ writeItems items

def writeEntry : Bytes × Value → Bytes
  | (key,v) => UInt8.ofNat key.length :: key ++ tagOf v :: writeScalar v

def writeEntries : List (Bytes × Value) → Bytes
  | [] => []
  | e :: entries => writeEntry e ++ writeEntries entries

end

def writeSection (s : Section) : Bytes := writeVarint s.length ++ writeEntries s

def encode (s : Section) : Bytes := header ++ writeSection s

abbrev KvReader := StateT (Bytes × Nat) (Except Error)

def take (n : Nat) : KvReader Bytes := fun (data,budget) =>
  if data.length < n then .error .truncated else .ok (data.take n,data.drop n,budget)

/-- Charge `n` values of at least `minBytes` bytes each. -/
def charge (n minBytes : Nat) : KvReader PUnit.{1} := fun (data,budget) =>
  if data.length / minBytes < n then .error .truncated
  else if budget < n then .error (.malformed "kv value budget")
  else .ok (⟨⟩,data,budget - n)

def readVarint : KvReader Nat := fun (data,budget) =>
  match data with
  | [] => .error .truncated
  | b₀ :: _ =>
    let size := if b₀ % 4 = 0 then 1 else if b₀ % 4 = 1 then 2 else if b₀ % 4 = 2 then 4 else 8
    if data.length < size then .error .truncated
    else .ok (ofLittleEndian (data.take size) / 4,data.drop size,budget)

def readUint (type : UInt8) : KvReader Value := do
  let b ← take (intWidth type)
  pure (.uint (ofLittleEndian b) type)

def readInt (type : UInt8) : KvReader Value := do
  let b ← take (intWidth type)
  let v := ofLittleEndian b
  let bits := 8 * intWidth type
  pure (.int (if v < 2^(bits-1) then v else v - 2^bits) type)

def readScalar (nested : KvReader Section) (type : UInt8) : KvReader Value :=
  if type = typeInt64 ∨ type = typeInt32 ∨ type = typeInt16 ∨ type = typeInt8 then readInt type
  else if type = typeUint64 ∨ type = typeUint32 ∨ type = typeUint16 ∨ type = typeUint8 then
    readUint type
  else if type = typeDouble then fun (data,budget) =>
    match ByteVec.ofBytes? 8 data with
    | none => .error .truncated
    | some v => .ok (.double v,data.drop 8,budget)
  else if type = typeString then do
    let n ← readVarint
    let b ← take n
    pure (.string b)
  else if type = typeBool then do
    let b ← take 1
    pure (.bool (b ≠ [0]))
  else if type = typeObject then do
    let s ← nested
    pure (.object s)
  else fun _ => .error (.malformed "kv type")

def minWireBytes (type : UInt8) : Nat :=
  if type = typeInt64 ∨ type = typeUint64 ∨ type = typeDouble then 8
  else if type = typeInt32 ∨ type = typeUint32 then 4
  else if type = typeInt16 ∨ type = typeUint16 then 2
  else 1

def readItems (nested : KvReader Section) (type : UInt8) : Nat → KvReader (List Value)
  | 0 => pure []
  | n+1 => do
    let v ← readScalar nested type
    let rest ← readItems nested type n
    pure (v :: rest)

def readValue (nested : KvReader Section) (type : UInt8) : KvReader Value :=
  if arrayFlag ≤ type then
    let elem := type - arrayFlag
    if elem = typeArray then fun _ => .error (.malformed "kv nested array")
    else do
      let n ← readVarint
      charge n (minWireBytes elem)
      let items ← readItems nested elem n
      pure (.array items)
  else if type = typeArray then fun _ => .error (.malformed "kv bare array type")
  else readScalar nested type

def isUtf8 (b : Bytes) : Bool := ByteArray.validateUTF8 ⟨b.toArray⟩

def readName : KvReader Bytes := fun state => do
  let (n,state) ← take 1 state
  let (b,state) ← (if n = [0] then .error (.malformed "kv name")
    else take (ofLittleEndian n) state : Except Error (Bytes × (Bytes × Nat)))
  if isUtf8 b then .ok (b,state) else .error (.malformed "kv name encoding")

def readEntries (nested : KvReader Section) : Nat → KvReader Section
  | 0 => pure []
  | n+1 => do
    let key ← readName
    let type ← take 1
    let v ← readValue nested (type.headD 0)
    let rest ← readEntries nested n
    pure ((key,v) :: rest)

/-- `levels` is how many more levels of nesting are allowed. -/
def readSection : Nat → KvReader Section
  | 0 => fun _ => .error (.malformed "kv nesting")
  | levels+1 => do
    let count ← readVarint
    charge count minEntryBytes
    readEntries (readSection levels) count

def decode (input : Bytes) : Except Error Section :=
  if input.take header.length ≠ header then .error (.malformed "kv header")
  else (readSection (maxDepth+1) (input.drop header.length,maxValues)).map Prod.fst

theorem littleEndian_length (width v : Nat) : (littleEndian width v).length = width := by
  induction width generalizing v with
  | zero => rfl
  | succ width ih => simp [littleEndian, ih]

theorem ofLittleEndian_littleEndian {width v : Nat} (h : v < 256^width) :
    ofLittleEndian (littleEndian width v) = v := by
  induction width generalizing v with
  | zero =>
    rw [Nat.pow_zero] at h
    have : v = 0 := by omega
    subst this
    rfl
  | succ width ih =>
    rw [Nat.pow_succ] at h
    have hdiv : v / 256 < 256^width := Nat.div_lt_of_lt_mul (by omega)
    have hrest := ih hdiv
    unfold ofLittleEndian at hrest ⊢
    rw [littleEndian, foldr_cons, hrest, UInt8.toNat_ofNat']
    omega

theorem take_append {a rest : Bytes} {n budget : Nat} (h : a.length = n) :
    take n (a ++ rest,budget) = .ok (a,rest,budget) := by
  subst h
  simp [take]

theorem readVarint_littleEndian {size v tag budget : Nat} (rest : Bytes) (htag : tag < 4)
    (hsize : size = if tag = 0 then 1 else if tag = 1 then 2 else if tag = 2 then 4 else 8)
    (hv : v*4 + tag < 256^size) :
    readVarint (littleEndian size (v*4 + tag) ++ rest,budget) = .ok (v,rest,budget) := by
  have hlen := littleEndian_length size (v*4 + tag)
  have hvalue := ofLittleEndian_littleEndian hv
  have hpos : 0 < size := by
    rw [hsize]
    split_ifs <;> omega
  obtain ⟨b,tail,hcons⟩ : ∃ b tail, littleEndian size (v*4 + tag) = b :: tail ∧
      b = UInt8.ofNat (v*4 + tag) := by
    cases size with
    | zero => omega
    | succ size => exact ⟨_,_,rfl,rfl⟩
  have hb : (b % 4).toNat = tag := by
    rw [hcons.2, UInt8.toNat_mod, UInt8.toNat_ofNat']
    have h4 : (4 : UInt8).toNat = 4 := rfl
    rw [h4]
    omega
  have hb' : ∀ t : UInt8, b % 4 = t ↔ tag = t.toNat := by
    intro t
    rw [← hb, UInt8.toNat_inj]
  have h0 := hb' 0
  have h1 := hb' 1
  have h2 := hb' 2
  have e0 : (0 : UInt8).toNat = 0 := rfl
  have e1 : (1 : UInt8).toNat = 1 := rfl
  have e2 : (2 : UInt8).toNat = 2 := rfl
  rw [e0] at h0
  rw [e1] at h1
  rw [e2] at h2
  have hread : (if b % 4 = 0 then 1 else if b % 4 = 1 then 2 else if b % 4 = 2 then 4 else 8) =
      size := by
    rw [hsize]
    simp only [h0, h1, h2]
  unfold readVarint
  rw [hcons.1, cons_append]
  simp only [hread]
  rw [← cons_append, ← hcons.1, if_neg (by simp [hlen]), take_left' hlen, drop_left' hlen, hvalue]
  have : (v*4 + tag) / 4 = v := by omega
  rw [this]

theorem readVarint_writeVarint {v budget : Nat} (rest : Bytes) (hv : v < 2^62) :
    readVarint (writeVarint v ++ rest,budget) = .ok (v,rest,budget) := by
  unfold writeVarint
  split_ifs with h1 h2 h3
  · exact readVarint_littleEndian rest (by omega) (by rfl) (by omega : v*4 + 0 < 256^1)
  · exact readVarint_littleEndian rest (by omega) (by rfl) (by omega)
  · exact readVarint_littleEndian rest (by omega) (by rfl) (by omega)
  · exact readVarint_littleEndian rest (by omega) (by rfl) (by omega)

def Plain : Value → Prop
  | .string v => v.length < 2^62
  | .uint v type => type ∈ [typeUint64,typeUint32,typeUint16,typeUint8] ∧ v < 256^intWidth type
  | _ => False

def NameOk (key : Bytes) : Prop := key ≠ [] ∧ key.length < 256 ∧ isUtf8 key = true

structure PlainSection (s : Section) : Prop where
  entries : ∀ e ∈ s, NameOk e.1 ∧ Plain e.2
  count : s.length ≤ maxValues

variable {s : Section} {budget : Nat}

theorem readName_append {key rest : Bytes} (h : NameOk key) :
    readName (UInt8.ofNat key.length :: (key ++ rest),budget) = .ok (key,rest,budget) := by
  obtain ⟨hne,hlt,hutf8⟩ := h
  have hpos : 0 < key.length := length_pos_iff.2 hne
  have hlen : (UInt8.ofNat key.length).toNat = key.length := by
    rw [UInt8.toNat_ofNat']
    omega
  have hzero : [UInt8.ofNat key.length] ≠ [0] := by
    intro heq
    have := congrArg UInt8.toNat (cons.inj heq).1
    rw [hlen] at this
    exact Nat.ne_of_gt hpos this
  have hvalue : ofLittleEndian [UInt8.ofNat key.length] = key.length := by
    simp [ofLittleEndian, hlen]
  have hfirst : take 1 (UInt8.ofNat key.length :: (key ++ rest),budget) =
      .ok ([UInt8.ofNat key.length],key ++ rest,budget) := take_append (a := [_]) rfl
  unfold readName
  rw [hfirst]
  change ((if [UInt8.ofNat key.length] = [0] then _ else _ : Except Error (Bytes × (Bytes × Nat))) >>=
    _) = _
  rw [if_neg hzero, hvalue, take_append rfl]
  change (if isUtf8 key = true then _ else _) = _
  rw [if_pos hutf8]

theorem readValue_append (nested : KvReader Section) {v : Value} (rest : Bytes) {b : Nat}
    (h : Plain v) : readValue nested (tagOf v) (writeScalar v ++ rest,b) = .ok (v,rest,b) := by
  cases v with
  | string text =>
    have hlen : text.length < 2^62 := h
    change (readVarint >>= fun n => take n >>= fun b => pure (Value.string b) : KvReader Value)
      ((writeVarint text.length ++ text) ++ rest,b) = _
    rw [append_assoc]
    simp only [Bind.bind, StateT.bind, readVarint_writeVarint _ hlen, Except.bind, take_append rfl]
    rfl
  | uint n type =>
    obtain ⟨htype,hn⟩ : type ∈ [typeUint64,typeUint32,typeUint16,typeUint8] ∧
      n < 256^intWidth type := h
    have hread : readUint type (littleEndian (intWidth type) n ++ rest,b) =
        .ok (.uint n type,rest,b) := by
      unfold readUint
      simp only [Bind.bind, StateT.bind, take_append (littleEndian_length _ _), Except.bind,
        ofLittleEndian_littleEndian hn]
      rfl
    simp only [mem_cons, not_mem_nil, or_false] at htype
    rcases htype with rfl | rfl | rfl | rfl <;> exact hread
  | int | double | bool | object | array => exact h.elim

theorem readEntries_append (nested : KvReader Section) (rest : Bytes)
    (h : ∀ e ∈ s, NameOk e.1 ∧ Plain e.2) :
    readEntries nested s.length (writeEntries s ++ rest,budget) = .ok (s,rest,budget) := by
  induction s with
  | nil => rfl
  | cons e s ih =>
    obtain ⟨hname,hplain⟩ := h e (by simp)
    obtain ⟨key,v⟩ := e
    have hs := ih fun e he => h e (by simp [he])
    have hbytes : writeEntries ((key,v) :: s) ++ rest =
        UInt8.ofNat key.length :: (key ++ ([tagOf v] ++ (writeScalar v ++ (writeEntries s ++ rest)))) := by
      simp [writeEntries, writeEntry]
    have htag : take 1 ([tagOf v] ++ (writeScalar v ++ (writeEntries s ++ rest)),budget) =
        .ok ([tagOf v],writeScalar v ++ (writeEntries s ++ rest),budget) := take_append rfl
    have hvalue := readValue_append nested (writeEntries s ++ rest) (b := budget) hplain
    rw [hbytes]
    simp only [length_cons, readEntries, Bind.bind, StateT.bind, readName_append hname,
      Except.bind, htag, headD_cons, hvalue, hs]
    rfl

theorem four_le_writeEntry {e : Bytes × Value} (hname : NameOk e.1) (hplain : Plain e.2) :
    4 ≤ (writeEntry e).length := by
  obtain ⟨key,v⟩ := e
  have hkey : 0 < key.length := length_pos_iff.2 hname.1
  have hvalue : 0 < (writeScalar v).length := by
    cases v with
    | string b =>
      rw [writeScalar, length_append]
      unfold writeVarint
      split_ifs <;> rw [littleEndian_length] <;> omega
    | uint n type =>
      rw [writeScalar, littleEndian_length]
      unfold intWidth
      split_ifs <;> omega
    | int | double | bool | object | array => exact hplain.elim
  simp only [writeEntry, length_append, length_cons]
  omega

theorem four_mul_length_le (h : ∀ e ∈ s, NameOk e.1 ∧ Plain e.2) :
    4 * s.length ≤ (writeEntries s).length := by
  induction s with
  | nil => exact Nat.zero_le _
  | cons e s ih =>
    have he := h e (by simp)
    have hfour := four_le_writeEntry he.1 he.2
    have hrest := ih fun e he => h e (by simp [he])
    simp only [writeEntries, length_append, length_cons]
    omega

theorem decode_encode (h : PlainSection s) : decode (encode s) = .ok s := by
  have hcount : s.length < 2^62 := h.count.trans_lt (by decide)
  have hroom : ¬ (writeEntries s).length / minEntryBytes < s.length := by
    have := four_mul_length_le h.entries
    unfold minEntryBytes
    omega
  have hcharge : charge s.length minEntryBytes (writeEntries s,maxValues) =
      .ok (⟨⟩,writeEntries s,maxValues - s.length) := by
    change (if (writeEntries s).length / minEntryBytes < s.length then _
      else if maxValues < s.length then _ else _) = _
    rw [if_neg hroom, if_neg (Nat.not_lt.2 h.count)]
  have hentries : readEntries (readSection maxDepth) s.length
      (writeEntries s ++ [],maxValues - s.length) = .ok (s,[],maxValues - s.length) :=
    readEntries_append _ [] h.entries
  rw [append_nil] at hentries
  unfold decode encode
  rw [take_left' rfl, drop_left' rfl, if_neg (fun hne => hne rfl)]
  unfold readSection writeSection
  simp only [Bind.bind, StateT.bind, readVarint_writeVarint _ hcount, Except.bind, hcharge,
    hentries]
  rfl

end Kv

end Wrkz
