import Wrkz.Library.Fallible
import Wrkz.Primitives.Serial

/-!
Seeds of 25 words. Three words carry four bytes of the key, each word told by its
distance from the one before, and the last word is a checksum of the others.
-/

set_option autoImplicit false

namespace Wrkz.Mnemonic

open Library List

abbrev Text := List Char

/-- The characters with the property `White_Space`. -/
def isWhitespace (c : Char) : Bool :=
  let n := c.toNat
  (9 ≤ n ∧ n ≤ 13) ∨ n = 0x20 ∨ n = 0x85 ∨ n = 0xA0 ∨ n = 0x1680 ∨ (0x2000 ≤ n ∧ n ≤ 0x200A) ∨
    n = 0x2028 ∨ n = 0x2029 ∨ n = 0x202F ∨ n = 0x205F ∨ n = 0x3000

def splitWhitespace (text : Text) : List Text :=
  (text.splitOnP isWhitespace).filter (· ≠ [])

/-- The words of a text, after `to_ascii_lowercase`. -/
def lowered (text : Text) : List Text :=
  (splitWhitespace text).map fun w => w.map Char.toLower

abbrev wl : Nat := 1626

/-- What is asked of the list `ENGLISH`. -/
structure WordList where
  words : List Text
  length_eq : words.length = wl
  sorted : words.Pairwise (· < ·)
  plain : ∀ w ∈ words, w ≠ [] ∧
    ∀ c ∈ w, c.toNat < 128 ∧ isWhitespace c = false ∧ c.toLower = c

instance : Inhabited WordList where
  default := {
    words := (List.range wl).map fun n => List.replicate (n+1) 'a'
    length_eq := by simp
    sorted := by
      refine List.pairwise_map.2 (List.pairwise_lt_range.imp fun {m n} hlt => ?_)
      refine List.lt_iff_exists.2 (.inl ⟨?_,by simpa using hlt⟩)
      rw [List.length_replicate, List.take_replicate, Nat.min_eq_left (by omega)]
    plain := by
      intro w hw
      obtain ⟨n,_,rfl⟩ := List.mem_map.1 hw
      refine ⟨by simp,fun c hc => ?_⟩
      rw [List.eq_of_mem_replicate hc]
      decide }

inductive MnemonicError where
  | wrongLength (n : Nat)
  | invalidWord (w : Text)
  | invalidChecksum
  | invalid
  deriving DecidableEq, Repr

def crc32Bit (crc : UInt32) : UInt32 :=
  if crc &&& 1 ≠ 0 then (crc >>> 1) ^^^ 0xEDB88320 else crc >>> 1

def crc32 (data : Bytes) : UInt32 :=
  ~~~(data.foldl (fun crc b => crc32Bit^[8] (crc ^^^ b.toUInt32)) 0xFFFFFFFF)

example : crc32 [0x31,0x32,0x33,0x34,0x35,0x36,0x37,0x38,0x39] = 0xCBF43926 := by decide +kernel

def chunks : Bytes → List Nat
  | a :: b :: c :: d :: rest =>
    [a,b,c,d].foldr (fun b acc => b.toNat + 256*acc) 0 :: chunks rest
  | _ => []

/-- The places of the three words for a chunk of the key. -/
def triple (val : Nat) : List Nat :=
  let w1 := val % wl
  let w2 := (val / wl + w1) % wl
  let w3 := (val / wl / wl + w2) % wl
  [w1,w2,w3]

/-- The sum wraps at 32 bits, as its products do. -/
def tripleValue (w1 w2 w3 : Nat) : Nat :=
  ((w1 + wl * ((wl - w1 + w2) % wl) % 2^32) % 2^32 +
    wl * wl % 2^32 * ((wl - w2 + w3) % wl) % 2^32) % 2^32

def readTriples : List Nat → Except MnemonicError Bytes
  | w1 :: w2 :: w3 :: rest => do
    let val := tripleValue w1 w2 w3
    refuseIf (val % wl ≠ w1) .invalid
    let out ← readTriples rest
    pure (Writer.u32Le val ++ out)
  | _ => pure []

namespace WordList

variable (english : WordList)

def word (i : Nat) : Text := english.words.getD i []

/-- `word_index`: in a strictly sorted list a search finds the only place of a word. -/
def wordIndex (w : Text) : Option Nat :=
  if w ∈ english.words then some (english.words.idxOf w) else none

def checksumWord (words : List Text) : Text :=
  let trimmed := words.flatMap fun w => (w.take 3).map fun c => UInt8.ofNat c.toNat
  let idx := (crc32 trimmed).toNat % words.length
  match english.wordIndex (words.getD idx []) with
  | some i => english.word i
  | none => []

def mnemonicWords (key : ByteVec 32) : List Text :=
  let words := ((chunks key.bytes).flatMap triple).map english.word
  words ++ [english.checksumWord words]

def privateKeyToMnemonic (key : ByteVec 32) : Text :=
  [' '].intercalate (english.mnemonicWords key)

def wordIndexes : List Text → Except MnemonicError (List Nat)
  | [] => pure []
  | w :: rest => do
    let i ← orRefuse (english.wordIndex w) (.invalidWord w)
    let idx ← wordIndexes rest
    pure (i :: idx)

def mnemonicToPrivateKey (text : Text) : Except MnemonicError Bytes := do
  refuseIf ((lowered text).length ≠ 25) (.wrongLength (lowered text).length)
  let idx ← english.wordIndexes (lowered text)
  let words := idx.map english.word
  refuseIf (english.checksumWord (words.take 24) ≠ words.getD 24 []) .invalidChecksum
  readTriples (idx.take 24)

end WordList

theorem tripleValue_eq (w1 w2 w3 : Nat) :
    tripleValue w1 w2 w3 =
      (w1 + 1626 * ((1626 - w1 + w2) % 1626) + 2643876 * ((1626 - w2 + w3) % 1626)) % 2^32 := by
  have hsquare : wl * wl % 2^32 = 2643876 := by decide
  unfold tripleValue
  rw [hsquare]
  simp only [wl]
  omega

theorem tripleValue_triple {val : Nat} (hval : val < 2^32) :
    tripleValue (val % wl) ((val / wl + val % wl) % wl)
      ((val / wl / wl + (val / wl + val % wl) % wl) % wl) = val := by
  rw [tripleValue_eq]
  simp only [wl]
  have hsecond : (1626 - val % 1626 + (val / 1626 + val % 1626) % 1626) % 1626 =
      val / 1626 % 1626 := by omega
  generalize hw2 : (val / 1626 + val % 1626) % 1626 = w2 at hsecond ⊢
  have hthird : (1626 - w2 + (val / 1626 / 1626 + w2) % 1626) % 1626 = val / 1626 / 1626 := by
    omega
  rw [hsecond, hthird]
  omega

theorem distance_add {a b : Nat} (ha : a < wl) (hb : b < wl) :
    ((1626 - a + b) % 1626 + a) % 1626 = b := by
  simp only [wl] at ha hb
  omega

/-- No triple that wraps passes the test: `2^32` is no multiple of 1626. -/
theorem triple_tripleValue {w1 w2 w3 : Nat} (h1 : w1 < wl) (h2 : w2 < wl) (h3 : w3 < wl)
    (hval : tripleValue w1 w2 w3 % wl = w1) : triple (tripleValue w1 w2 w3) = [w1,w2,w3] := by
  have hsecond := distance_add h1 h2
  have hthird := distance_add h2 h3
  have hd2 : (1626 - w1 + w2) % 1626 < 1626 := Nat.mod_lt _ (by decide)
  have hd3 : (1626 - w2 + w3) % 1626 < 1626 := Nat.mod_lt _ (by decide)
  rw [tripleValue_eq] at hval ⊢
  simp only [wl] at h1 hval
  generalize (1626 - w1 + w2) % 1626 = d2 at *
  generalize (1626 - w2 + w3) % 1626 = d3 at *
  have hlow : w1 + 1626 * d2 + 2643876 * d3 < 2^32 := by omega
  rw [Nat.mod_eq_of_lt hlow]
  clear hval hlow
  have hquot : (w1 + 1626 * d2 + 2643876 * d3) / 1626 = d2 + 1626 * d3 := by omega
  have hfirst : (w1 + 1626 * d2 + 2643876 * d3) % 1626 = w1 := by omega
  have hquot' : (d2 + 1626 * d3) / 1626 = d3 := by omega
  have hsecond' : (d2 + 1626 * d3 + w1) % 1626 = w2 := by omega
  simp only [triple, wl, hquot, hfirst, hquot', hsecond', hthird]

theorem chunks_u32Le {v : Nat} (hv : v < 2^32) (rest : Bytes) :
    chunks (Writer.u32Le v ++ rest) = v :: chunks rest := by
  simp only [Writer.u32Le, cons_append, nil_append, chunks, foldr_cons,
    foldr_nil, UInt8.toNat_ofNat', cons.injEq, and_true]
  omega

theorem triple_lt {val i : Nat} (h : i ∈ triple val) : i < wl := by
  have hpos : 0 < wl := by decide
  simp only [triple, mem_cons, not_mem_nil, or_false] at h
  rcases h with rfl | rfl | rfl <;> exact Nat.mod_lt _ hpos

theorem readTriples_chunks (n : Nat) {data : Bytes} (hlen : data.length = 4 * n) :
    readTriples ((chunks data).flatMap triple) = .ok data ∧
      ((chunks data).flatMap triple).length = 3 * n := by
  induction n generalizing data with
  | zero =>
    obtain rfl := length_eq_zero_iff.1 hlen
    exact ⟨rfl,rfl⟩
  | succ n ih =>
    match data, hlen with
    | a :: b :: c :: d :: rest, hlen =>
      have hlen' : rest.length = 4 * n := by
        simp only [length_cons] at hlen
        omega
      obtain ⟨hread,hcount⟩ := ih hlen'
      have ha := a.toNat_lt
      have hb := b.toNat_lt
      have hc := c.toNat_lt
      have hd := d.toNat_lt
      obtain ⟨val,hval⟩ : ∃ val, val = [a,b,c,d].foldr (fun b acc => b.toNat + 256*acc) 0 :=
        ⟨_,rfl⟩
      have hbytes : Writer.u32Le val = [a,b,c,d] := by
        simp only [hval, foldr_cons, foldr_nil, Writer.u32Le, cons.injEq, and_true,
          ← UInt8.toNat_inj, UInt8.toNat_ofNat']
        omega
      have hlt : val < 2^32 := by
        simp only [hval, foldr_cons, foldr_nil]
        omega
      simp only [chunks, ← hval, flatMap_cons, triple, cons_append, nil_append,
        readTriples, tripleValue_triple hlt, refuseIf, ne_eq, not_true_eq_false, if_false, hread,
        bind, Except.bind, pure, Except.pure, hbytes, length_cons, hcount, true_and]
      omega

theorem chunks_readTriples (n : Nat) {idx : List Nat} {out : Bytes} (hlen : idx.length = 3 * n)
    (hidx : ∀ i ∈ idx, i < wl) (h : readTriples idx = .ok out) :
    out.length = 4 * n ∧ (chunks out).flatMap triple = idx := by
  induction n generalizing idx out with
  | zero =>
    obtain rfl := length_eq_zero_iff.1 hlen
    cases h
    exact ⟨rfl,rfl⟩
  | succ n ih =>
    match idx, hlen with
    | w1 :: w2 :: w3 :: rest, hlen =>
      unfold readTriples at h
      simp only [bind_ok_iff, refuseIf_ok_iff, not_not] at h
      obtain ⟨_,hval,out',hout,heq⟩ := h
      cases heq
      simp only [forall_mem_cons] at hidx
      obtain ⟨h1,h2,h3,hrest⟩ := hidx
      obtain ⟨hcount,hchunks⟩ :=
        ih (by simp only [length_cons] at hlen; omega) hrest hout
      have hlt : tripleValue w1 w2 w3 < 2^32 := Nat.mod_lt _ (by decide)
      rw [chunks_u32Le hlt, flatMap_cons, hchunks, triple_tripleValue h1 h2 h3 hval]
      simp only [Writer.u32Le, length_append, length_cons, length_nil, hcount]
      exact ⟨by omega,rfl⟩

namespace WordList

variable {english : WordList}

theorem nodup (english : WordList) : english.words.Nodup :=
  english.sorted.imp fun h => ne_of_lt h

variable {idx : List Nat} {ws : List Text} {i : Nat}

theorem word_mem (h : i < wl) : english.word i ∈ english.words := by
  rw [← english.length_eq] at h
  rw [word, getD_eq_getElem _ _ h]
  exact getElem_mem h

theorem wordIndex_word (h : i < wl) : english.wordIndex (english.word i) = some i := by
  rw [wordIndex, if_pos (word_mem h)]
  rw [← english.length_eq] at h
  rw [word, getD_eq_getElem _ _ h, english.nodup.idxOf_getElem]

theorem wordIndex_some {w : Text} (h : english.wordIndex w = some i) :
    i < wl ∧ english.word i = w := by
  unfold wordIndex at h
  split at h
  · rename_i hmem
    cases h
    have hlt := idxOf_lt_length_of_mem hmem
    rw [word, getD_eq_getElem _ _ hlt, getElem_idxOf]
    exact ⟨english.length_eq ▸ hlt,rfl⟩
  · cases h

theorem wordIndexes_map (h : ∀ i ∈ idx, i < wl) :
    english.wordIndexes (idx.map english.word) = .ok idx := by
  induction idx with
  | nil => rfl
  | cons i idx ih =>
    simp only [forall_mem_cons] at h
    simp only [map_cons, wordIndexes, wordIndex_word h.1, orRefuse, ih h.2, bind, Except.bind,
      pure, Except.pure]

theorem wordIndexes_ok (h : english.wordIndexes ws = .ok idx) :
    ws = idx.map english.word ∧ ∀ i ∈ idx, i < wl := by
  induction ws generalizing idx with
  | nil =>
    cases h
    simp
  | cons w ws ih =>
    simp only [wordIndexes, bind_ok_iff, orRefuse_ok_iff] at h
    obtain ⟨i,hi,rest,hrest,heq⟩ := h
    cases heq
    obtain ⟨hlt,hword⟩ := wordIndex_some hi
    obtain ⟨hws,hall⟩ := ih hrest
    exact ⟨by rw [map_cons, hword, ← hws],forall_mem_cons.2 ⟨hlt,hall⟩⟩

theorem checksumWord_eq (english : WordList) (hne : idx ≠ []) (h : ∀ i ∈ idx, i < wl) :
    ∃ i, i < wl ∧ english.checksumWord (idx.map english.word) = english.word i := by
  unfold checksumWord
  dsimp only
  generalize (crc32 _).toNat = crc
  have hlt : crc % (idx.map english.word).length < idx.length := by
    rw [length_map]
    exact Nat.mod_lt _ (length_pos_iff.2 hne)
  generalize crc % (idx.map english.word).length = k at hlt ⊢
  have hk := h idx[k] (getElem_mem hlt)
  refine ⟨idx[k],hk,?_⟩
  rw [getD_eq_getElem _ _ (by simpa using hlt), getElem_map, wordIndex_word hk]

theorem splitWhitespace_intercalate (h : ∀ w ∈ ws, w ∈ english.words) :
    splitWhitespace ([' '].intercalate ws) = ws := by
  have hplain : ∀ w ∈ ws, ∀ c ∈ w, isWhitespace c = false :=
    fun w hw c hc => ((english.plain w (h w hw)).2 c hc).2.1
  induction ws with
  | nil => rfl
  | cons w ws ih =>
    simp only [forall_mem_cons] at h hplain
    have hne := (english.plain w h.1).1
    cases ws with
    | nil =>
      simp only [intercalate_singleton, splitWhitespace]
      rw [splitOnP_eq_singleton hplain.1]
      simp [hne]
    | cons w' ws =>
      have hrest := ih h.2 hplain.2
      unfold splitWhitespace at hrest ⊢
      rw [intercalate_cons_cons, append_assoc, singleton_append,
        splitOnP_append_cons_of_forall_mem hplain.1 ' ' (by decide), filter_cons, hrest]
      simp [hne]

theorem lowered_intercalate (english : WordList) (h : ∀ w ∈ ws, w ∈ english.words) :
    lowered ([' '].intercalate ws) = ws := by
  have hlower : ∀ w ∈ ws, w.map Char.toLower = w := by
    intro w hw
    refine (map_congr_left fun c hc => ?_).trans (map_id w)
    exact ((english.plain w (h w hw)).2 c hc).2.2
  rw [lowered, splitWhitespace_intercalate h]
  exact (map_congr_left hlower).trans (map_id ws)

/-- A key has one phrase, and a phrase one key. -/
theorem mnemonic_bijective (english : WordList) :
    (∀ key, english.mnemonicToPrivateKey (english.privateKeyToMnemonic key) = .ok key.bytes) ∧
    ∀ text out, english.mnemonicToPrivateKey text = .ok out → ∃ key : ByteVec 32,
      key.bytes = out ∧ [' '].intercalate (lowered text) = english.privateKeyToMnemonic key := by
  constructor
  · intro key
    obtain ⟨hread,hcount⟩ := readTriples_chunks 8 key.length_eq
    generalize hidx : (chunks key.bytes).flatMap triple = idx at hread hcount
    have hall : ∀ i ∈ idx, i < wl := by
      intro i hi
      rw [← hidx] at hi
      obtain ⟨val,_,hi⟩ := List.mem_flatMap.1 hi
      exact triple_lt hi
    have hne : idx ≠ [] := by
      rintro rfl
      cases hcount
    obtain ⟨c,hc,hsum⟩ := checksumWord_eq english hne hall
    have hwords : english.mnemonicWords key = (idx ++ [c]).map english.word := by
      simp only [mnemonicWords, hidx, hsum, List.map_append, List.map_cons, List.map_nil]
    have hall' : ∀ i ∈ idx ++ [c], i < wl := by
      intro i hi
      rcases List.mem_append.1 hi with hi | hi
      · exact hall i hi
      · rwa [List.mem_singleton.1 hi]
    have hlowered : lowered (english.privateKeyToMnemonic key) = (idx ++ [c]).map english.word := by
      rw [privateKeyToMnemonic, hwords]
      refine lowered_intercalate english fun w hw => ?_
      obtain ⟨i,hi,rfl⟩ := List.mem_map.1 hw
      exact word_mem (hall' i hi)
    have htake : (idx ++ [c]).take 24 = idx := List.take_left' hcount
    have hget : ((idx ++ [c]).map english.word).getD 24 [] = english.word c := by
      rw [List.map_append, List.getD_append_right _ _ _ _ (by simp [hcount])]
      simp [hcount]
    unfold mnemonicToPrivateKey
    rw [hlowered, wordIndexes_map hall']
    simp only [bind, Except.bind, refuseIf, ← List.map_take, htake, hget, hsum, ne_eq,
      not_true_eq_false, if_false, hread]
    simp [hcount]
  · intro text out h
    simp only [mnemonicToPrivateKey, bind_ok_iff, refuseIf_ok_iff, not_not] at h
    obtain ⟨_,hlen,idx,hidx,_,hsum,hread⟩ := h
    obtain ⟨hwords,hall⟩ := wordIndexes_ok hidx
    rw [hwords, List.length_map] at hlen
    obtain ⟨hout,hchunks⟩ := chunks_readTriples 8 (by simp [hlen])
      (fun i hi => hall i (List.mem_of_mem_take hi)) hread
    refine ⟨⟨out,hout⟩,rfl,?_⟩
    have hlast : (idx.map english.word).take 24 ++ [(idx.map english.word).getD 24 []] =
        idx.map english.word := by
      have hlt : 24 < (idx.map english.word).length := by simp [hlen]
      rw [List.getD_eq_getElem _ _ hlt, List.take_append_getElem hlt]
      exact List.take_of_length_le (by simp [hlen])
    rw [privateKeyToMnemonic, mnemonicWords, hwords]
    dsimp only
    rw [hchunks, List.map_take, hsum, hlast]

end WordList

end Wrkz.Mnemonic
