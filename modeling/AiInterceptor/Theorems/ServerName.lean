import AiInterceptor.Theorems.ClientHello

/-!
# What `parseSNI` reads, on any input

The parser takes five length fields from the input. None of them takes it out of its
buffer, and every turn of the loop over the extensions moves it forward, so that it
comes to an end on every input (`extractSNI_total`). A name it returns comes from a
server_name extension within the declared block, at a fixed place in the extension's
data (`name_from_extension`). The list length and the name type are not read: the name
is an entry of the list if these two say so.
-/

namespace AiInterceptor.Theorems.ServerName

open Lib Go Proxy

/-! ## The loop, turn by turn -/

/-- How a turn of the loop ends: it leaves the loop, or goes on at another position. -/
inductive Turn
  | done (result : Option GoString)
  | next (pos : Nat)

/-- The result, if what follows the turn is `rest`. -/
def Turn.finish (rest : Nat → Option GoString) : Turn → Option GoString
  | .done result => result
  | .next pos => rest pos

/-- The body of the loop. -/
def loopTurn (hello : List UInt8) (stop pos : Nat) : Turn :=
  if pos + tlsExtHdrLen ≤ stop then
    match uint16At hello pos, uint16At hello (pos + 2) with
    | some extType, some extLen =>
        if stop < pos + tlsExtHdrLen + extLen.toNat then .done (some [])
        else
          match serverName hello extType (pos + tlsExtHdrLen) extLen.toNat with
          | none => .done none
          | some (some name) => .done (some name)
          | some none => .next (pos + tlsExtHdrLen + extLen.toNat)
    | _, _ => .done none
  else .done (some [])

/-- At most `turns` turns from `pos` on; `none` if the loop is not done by then. -/
def loopRun (hello : List UInt8) (stop : Nat) : Nat → Nat → Option (Option GoString)
  | 0, _ => none
  | turns + 1, pos =>
      match loopTurn hello stop pos with
      | .done result => some result
      | .next pos' => loopRun hello stop turns pos'

section Loop

variable {hello : List UInt8} {stop pos : Nat}

theorem loopTurn_next {pos' : Nat} (h : loopTurn hello stop pos = .next pos') :
    pos + tlsExtHdrLen ≤ pos' ∧ pos' ≤ stop := by
  unfold loopTurn at h
  split at h
  · split at h
    · split at h
      · cases h
      · rename_i hfits
        split at h
        · cases h
        · cases h
        · obtain rfl := Turn.next.inj h
          omega
    · cases h
  · cases h

theorem extensionLoop_eq (hello : List UInt8) (stop pos : Nat) :
    extensionLoop hello stop pos =
      (loopTurn hello stop pos).finish (extensionLoop hello stop) := by
  rw [extensionLoop]
  unfold loopTurn
  by_cases hpos : pos + tlsExtHdrLen ≤ stop
  · rw [dif_pos hpos, if_pos hpos]
    cases uint16At hello pos with
    | none => rfl
    | some extType =>
        cases uint16At hello (pos + 2) with
        | none => rfl
        | some extLen =>
            dsimp only
            by_cases hover : stop < pos + tlsExtHdrLen + extLen.toNat
            · rw [if_pos hover, if_pos hover]
              rfl
            · rw [if_neg hover, if_neg hover]
              cases serverName hello extType (pos + tlsExtHdrLen) extLen.toNat with
              | none => rfl
              | some result =>
                  cases result with
                  | none => rfl
                  | some name => rfl
  · rw [dif_neg hpos, if_neg hpos]
    rfl

/-- A turn for every four bytes that are left, and one more, is enough. -/
theorem loopRun_enough (hello : List UInt8) {stop pos turns : Nat}
    (h : stop < pos + 4 * (turns + 1)) :
    loopRun hello stop (turns + 1) pos = some (extensionLoop hello stop pos) := by
  induction turns generalizing pos with
  | zero =>
      rw [loopRun, extensionLoop_eq]
      cases hturn : loopTurn hello stop pos with
      | done result => rfl
      | next pos' =>
          -- a turn moves four bytes at least, more than there are
          obtain ⟨hmoved, hle⟩ := loopTurn_next hturn
          rw [tlsExtHdrLen] at hmoved
          omega
  | succ turns ih =>
      rw [loopRun, extensionLoop_eq]
      cases hturn : loopTurn hello stop pos with
      | done result => rfl
      | next pos' =>
          obtain ⟨hmoved, _⟩ := loopTurn_next hturn
          rw [tlsExtHdrLen] at hmoved
          exact ih (by omega)

end Loop

/-! ## No panic -/

theorem extractSNI_isSome (conn : Conn) (b : UInt8) : ∃ x, (extractSNI conn b).1 = some x := by
  rcases extractSNI_cases conn b with ⟨e, rest, h⟩ | ⟨hdr, _, recData, host, _, rest, _, _, _, _, h⟩
  · exact ⟨_, congrArg Prod.fst h⟩
  · exact ⟨_, congrArg Prod.fst h⟩

/-- **The TLS branch is total.** No input makes `extractSNI` or `parseSNI` take an index
or a slice out of range; a turn of the loop that goes on brings it nearer to the end; it is
done after one turn for every four bytes and one more; and so the handler never panics on
a stream that starts as TLS. -/
theorem extractSNI_total :
    (∀ conn b, ∃ x, (extractSNI conn b).1 = some x) ∧
      (∀ hello, ∃ host, parseSNI hello = some host) ∧
      (∀ hello stop pos pos', loopTurn hello stop pos = .next pos' →
        pos' ≤ stop ∧ stop - pos' < stop - pos) ∧
      (∀ (hello : List UInt8) stop pos, stop ≤ hello.length →
        ∃ host, loopRun hello stop ((stop - pos) / 4 + 1) pos = some (some host) ∧
          extensionLoop hello stop pos = some host) ∧
      ∀ lowerRune (conn : Conn), conn.bytes.head? = some tlsRecordHandshake →
        (handle lowerRune conn).1 ≠ .panicked := by
  refine ⟨extractSNI_isSome, parseSNI_isSome, ?_, ?_, ?_⟩
  · intro hello stop pos pos' hturn
    obtain ⟨hmoved, hle⟩ := loopTurn_next hturn
    rw [tlsExtHdrLen] at hmoved
    omega
  · intro hello stop pos hstop
    obtain ⟨host, hhost⟩ := extensionLoop_isSome hstop pos
    refine ⟨host, ?_, hhost⟩
    rw [loopRun_enough hello (by omega), hhost]
  · intro lowerRune conn htls
    rcases first_cases conn with ⟨first, e, conn', hfirst⟩ | ⟨b, conn', hfirst, hbytes⟩
    · rw [handle_failed hfirst]
      simp
    · rw [hbytes] at htls
      obtain rfl := Option.some.inj htls
      rw [handle_eq hfirst, if_pos rfl]
      obtain ⟨x, hx⟩ := extractSNI_isSome conn' tlsRecordHandshake
      rw [← Prod.mk.eta (p := extractSNI conn' tlsRecordHandshake), hx, finish]
      split <;> simp

/-- A record that ends in the middle of the message it announces. -/
def truncated : Conn := [⟨[0x16, 3, 1, 0, 5, 1, 0xFF, 0xFF, 0xFF, 0], none⟩]

theorem extractSNI_total_truncated :
    truncated.bytes.head? = some tlsRecordHandshake ∧ (handle id truncated).1 ≠ .panicked :=
  ⟨rfl, extractSNI_total.2.2.2.2 id truncated rfl⟩

/-! ## Where a name comes from -/

/-- The declared extension block: where it starts, after the four length fields in front
of it, and how long it is said to be. -/
def Block (hello : List UInt8) (start total : Nat) : Prop :=
  ∃ sessLen cipherLen compLen extTotal, ∃ pos₁ pos₂ pos₃ : Nat,
    index hello clientHelloRandOffset = some sessLen ∧
    pos₁ = clientHelloRandOffset + (1 + sessLen.toNat) ∧
    uint16At hello pos₁ = some cipherLen ∧ pos₂ = pos₁ + (2 + cipherLen.toNat) ∧
    index hello pos₂ = some compLen ∧ pos₃ = pos₂ + (1 + compLen.toNat) ∧
    uint16At hello pos₃ = some extTotal ∧ start = pos₃ + 2 ∧ total = extTotal.toNat

/-- An extension stands at a position: its type, its length and its data, which ends by
`stop`. -/
structure ExtensionAt (hello : List UInt8) (stop pos : Nat) (extType extLen : UInt16)
    (data : List UInt8) : Prop where
  typeAt : uint16At hello pos = some extType
  lengthAt : uint16At hello (pos + 2) = some extLen
  dataAt : slice hello (pos + 4) (pos + 4 + extLen.toNat) = some data
  inside : pos + 4 + extLen.toNat ≤ stop

/-- The positions where extensions start: the start of the block, and the end of every
extension in it. -/
inductive Boundary (hello : List UInt8) (stop start : Nat) : Nat → Prop
  | first : Boundary hello stop start start
  | next {pos : Nat} {extType extLen : UInt16} {data : List UInt8} :
      Boundary hello stop start pos → ExtensionAt hello stop pos extType extLen data →
      Boundary hello stop start (pos + 4 + extLen.toNat)

/-- The hello carries an extension within its declared block. -/
def Carries (hello : List UInt8) (extType : UInt16) (data : List UInt8) : Prop :=
  ∃ start total pos extLen, Block hello start total ∧ Boundary hello (start + total) start pos ∧
    ExtensionAt hello (start + total) pos extType extLen data

/-- An entry of a ServerNameList, given without its length field. -/
inductive Entry : List UInt8 → UInt8 → GoString → Prop
  | first {list : List UInt8} {nameType : UInt8} {nameLen : UInt16} {name : GoString} :
      index list 0 = some nameType → uint16At list 1 = some nameLen →
      slice list 3 (3 + nameLen.toNat) = some name → Entry list nameType name
  | later {list : List UInt8} {nameType : UInt8} {nameLen : UInt16} {name : GoString} :
      uint16At list 1 = some nameLen → 3 + nameLen.toNat ≤ list.length →
      Entry (list.drop (3 + nameLen.toNat)) nameType name → Entry list nameType name

/-- The data is a ServerNameList whose declared length does not exceed it, and the name
is that of an entry of type `host_name` within the declared length. -/
def Genuine (data : List UInt8) (name : GoString) : Prop :=
  ∃ listLen, uint16At data 0 = some listLen ∧ 2 + listLen.toNat ≤ data.length ∧
    Entry ((data.drop 2).take listLen.toNat) 0 name

/-- What the parser takes for the name: the bytes from offset 5 on, as many as the number
at offset 3 says. -/
def FirstName (data : List UInt8) (name : GoString) : Prop :=
  ∃ nameLen, uint16At data sniNameLenOffset = some nameLen ∧
    slice data sniNameOffset (sniNameOffset + nameLen.toNat) = some name

theorem serverName_found {hello : List UInt8} {extType : UInt16} {pos extLen : Nat}
    {name : GoString} (h : serverName hello extType pos extLen = some (some name)) :
    extType = tlsExtSNI ∧ ∃ data, slice hello pos (pos + extLen) = some data ∧
      FirstName data name := by
  rw [serverName] at h
  split at h
  · rename_i hsni
    refine ⟨hsni.1, ?_⟩
    cases hdata : slice hello pos (pos + extLen) with
    | none =>
        rw [hdata] at h
        cases h
    | some data =>
        rw [hdata] at h
        simp only [Option.bind_eq_bind, Option.bind_some] at h
        cases hlen : uint16At data sniNameLenOffset with
        | none =>
            rw [hlen] at h
            cases h
        | some nameLen =>
            rw [hlen] at h
            simp only [Option.bind_some] at h
            split at h
            · obtain ⟨found, hslice, heq⟩ := Option.bind_eq_some_iff.mp h
              obtain rfl : found = name := by simpa using heq
              exact ⟨data, rfl, nameLen, hlen, hslice⟩
            · cases h
  · cases h

section Found

variable {hello : List UInt8} {stop limit pos : Nat} (hstop : stop ≤ limit)
  (hlen : stop ≤ hello.length)
include hstop

/-- A turn that ends with a name stands at a server_name extension. -/
theorem loopTurn_name {name : GoString} (hne : name ≠ [])
    (h : loopTurn hello stop pos = .done (some name)) :
    ∃ extLen data, ExtensionAt hello limit pos tlsExtSNI extLen data ∧ FirstName data name := by
  unfold loopTurn at h
  split at h
  · split at h
    · rename_i extType extLen htype hlength
      split at h
      · exact absurd (Option.some.inj (Turn.done.inj h)).symm hne
      · rename_i hover
        rw [tlsExtHdrLen] at hover
        split at h
        · cases h
        · rename_i found hname
          obtain rfl := Option.some.inj (Turn.done.inj h)
          obtain ⟨rfl, data, hdata, hfirst⟩ := serverName_found hname
          exact ⟨extLen, data, ⟨htype, hlength, hdata, by omega⟩, hfirst⟩
        · cases h
    · cases h
  · exact absurd (Option.some.inj (Turn.done.inj h)).symm hne

include hlen

/-- A turn that goes on has passed an extension. -/
theorem loopTurn_passed {pos' : Nat} (h : loopTurn hello stop pos = .next pos') :
    ∃ extType extLen data, ExtensionAt hello limit pos extType extLen data ∧
      pos' = pos + 4 + extLen.toNat := by
  unfold loopTurn at h
  split at h
  · split at h
    · rename_i extType extLen htype hlength
      split at h
      · cases h
      · rename_i hover
        rw [tlsExtHdrLen] at hover
        split at h
        · cases h
        · cases h
        · obtain rfl := Turn.next.inj h
          obtain ⟨data, hdata, _⟩ := @slice_isSome hello (pos + 4) (pos + 4 + extLen.toNat)
            (by omega) (by omega)
          exact ⟨extType, extLen, data, ⟨htype, hlength, hdata, by omega⟩, rfl⟩
    · cases h
  · cases h

/-- A loop that returns a name has got to a server_name extension. -/
theorem extensionLoop_found {start : Nat} {name : GoString} (hne : name ≠ [])
    (hpos : Boundary hello limit start pos) (h : extensionLoop hello stop pos = some name) :
    ∃ pos' extLen data, Boundary hello limit start pos' ∧
      ExtensionAt hello limit pos' tlsExtSNI extLen data ∧ FirstName data name := by
  -- on what is left of the block: every turn that goes on makes it smaller
  generalize hleft : stop - pos = left
  induction left using Nat.strong_induction_on generalizing pos with
  | _ left ih =>
      rw [extensionLoop_eq] at h
      cases hturn : loopTurn hello stop pos with
      | done result =>
          rw [hturn] at h
          obtain rfl : result = some name := h
          obtain ⟨extLen, data, hext, hfirst⟩ := loopTurn_name hstop hne hturn
          exact ⟨pos, extLen, data, hpos, hext, hfirst⟩
      | next pos' =>
          rw [hturn] at h
          obtain ⟨extType, extLen, data, hext, rfl⟩ := loopTurn_passed hstop hlen hturn
          obtain ⟨hmoved, hle⟩ := loopTurn_next hturn
          rw [tlsExtHdrLen] at hmoved
          exact ih (stop - (pos + 4 + extLen.toNat)) (by omega) (hpos.next hext) h rfl

end Found

/-- A name comes from the loop over the declared block, cut off at the end of the
hello. -/
theorem parseSNI_block {hello : List UInt8} {name : GoString} (hne : name ≠ [])
    (h : parseSNI hello = some name) :
    ∃ start total, Block hello start total ∧
      extensionLoop hello (min (start + total) hello.length) start = some name := by
  -- every early return gives the empty name
  have hempty : ∀ {P : Prop}, some ([] : GoString) = some name → P :=
    fun heq => absurd (Option.some.inj heq).symm hne
  rw [parseSNI] at h
  split at h
  · exact hempty h
  dsimp only at h
  split at h
  · exact hempty h
  obtain ⟨sessLen, hsess, h⟩ := Option.bind_eq_some_iff.mp h
  split at h
  · exact hempty h
  obtain ⟨cipherLen, hcipher, h⟩ := Option.bind_eq_some_iff.mp h
  split at h
  · exact hempty h
  obtain ⟨compLen, hcomp, h⟩ := Option.bind_eq_some_iff.mp h
  split at h
  · exact hempty h
  obtain ⟨extTotal, htotal, h⟩ := Option.bind_eq_some_iff.mp h
  exact ⟨_, extTotal.toNat, ⟨sessLen, cipherLen, compLen, extTotal, _, _, _, hsess, rfl, hcipher,
    rfl, hcomp, rfl, htotal, rfl, rfl⟩, h⟩

/-! ## When the name is an entry of the list -/

/-- The list says that its first entry is the name: the length of the list covers the
entry and does not exceed the data, and the type is `host_name`. -/
structure Declared (data : List UInt8) (name : GoString) : Prop where
  type : index data 2 = some 0
  length : ∃ listLen, uint16At data 0 = some listLen ∧ 3 + name.length ≤ listLen.toNat ∧
    2 + listLen.toNat ≤ data.length

/-- A slice of a window is a slice of the whole. -/
theorem slice_window {data : List UInt8} {k m lo hi : Nat} (hhi : hi ≤ m)
    (hm : k + m ≤ data.length) :
    slice ((data.drop k).take m) lo hi = slice data (k + lo) (k + hi) := by
  have hlen : ((data.drop k).take m).length = m := by
    rw [List.length_take, List.length_drop]
    omega
  rw [slice, slice, hlen]
  by_cases hlo : lo ≤ hi
  · rw [if_pos ⟨hlo, hhi⟩, if_pos ⟨by omega, by omega⟩, List.drop_take, List.drop_drop,
      List.take_take, Nat.min_eq_left (by omega), Nat.add_sub_add_left]
  · rw [if_neg (fun h => hlo h.1), if_neg (fun h => hlo (by omega))]

theorem uint16At_window {data : List UInt8} {k m pos : Nat} (hpos : pos + 2 ≤ m)
    (hm : k + m ≤ data.length) :
    uint16At ((data.drop k).take m) pos = uint16At data (k + pos) := by
  rw [uint16At, uint16At, slice_window hpos hm, Nat.add_assoc]

theorem Declared.genuine {data : List UInt8} {name : GoString} (h : Declared data name)
    (hfirst : FirstName data name) : Genuine data name := by
  obtain ⟨listLen, hlist, hcovers, hfits⟩ := h.length
  obtain ⟨nameLen, hnameLen, hname⟩ := hfirst
  have hsize : name.length = nameLen.toNat := by
    rw [slice] at hname
    split at hname
    · rename_i hin
      rw [← Option.some.inj hname, List.length_take, List.length_drop]
      omega
    · cases hname
  refine ⟨listLen, hlist, hfits, @Entry.first _ 0 nameLen name ?_ ?_ ?_⟩
  · show ((data.drop 2).take listLen.toNat)[0]? = _
    rw [List.getElem?_take_of_lt (by omega), List.getElem?_drop]
    exact h.type
  · rw [uint16At_window (by omega) hfits]
    exact hnameLen
  · rw [slice_window (by omega) hfits, ← Nat.add_assoc]
    exact hname

/-- A name that `parseSNI` returns comes from a server_name extension in the declared
block, from a fixed place in its data, and lies in it; and it is the `host_name` of the
list if the two fields of the list that are skipped say so. -/
theorem name_from_extension (hello : List UInt8) (name : GoString)
    (h : parseSNI hello = some name) (hne : name ≠ []) :
    ∃ data, Carries hello tlsExtSNI data ∧ FirstName data name ∧
      (Declared data name → Genuine data name) := by
  obtain ⟨start, total, hblock, hloop⟩ := parseSNI_block hne h
  obtain ⟨pos, extLen, data, hpos, hext, hfirst⟩ :=
    extensionLoop_found (Nat.min_le_left _ _) (Nat.min_le_right _ _) hne .first hloop
  exact ⟨data, ⟨start, total, pos, extLen, hblock, hpos, hext⟩, hfirst,
    fun hdeclared => hdeclared.genuine hfirst⟩

theorem name_from_extension_sample :
    parseSNI ClientHello.sampleHello.body = some (ascii "a.io") ∧
      ∃ data, Carries ClientHello.sampleHello.body tlsExtSNI data ∧
        FirstName data (ascii "a.io") := by
  have hname := ClientHello.parseSNI_body ClientHello.sampleHello_announces
  obtain ⟨data, hcarries, hfirst, _⟩ := name_from_extension _ _ hname (by decide)
  exact ⟨hname, data, hcarries, hfirst⟩

/-- A hello whose server_name extension declares an empty list and goes on all the
same. -/
def emptyList : List UInt8 :=
  List.replicate 34 0 ++ [0, 0, 0, 0, 0, 10] ++ [0, 0, 0, 6] ++ [0, 0, 0, 0, 1, 0x61]

theorem emptyList_parse : parseSNI emptyList = some [0x61] := by
  have hloop : parseSNI emptyList = extensionLoop emptyList 50 40 := rfl
  have hturn : loopTurn emptyList 50 40 = .done (some [0x61]) := rfl
  rw [hloop, extensionLoop_eq, hturn]
  rfl

theorem emptyList_block {start total : Nat} (h : Block emptyList start total) :
    start = 40 ∧ total = 10 := by
  obtain ⟨sessLen, cipherLen, compLen, extTotal, pos₁, pos₂, pos₃, hsess, rfl, hcipher, rfl, hcomp,
    rfl, htotal, rfl, rfl⟩ := h
  obtain rfl : sessLen = 0 := Option.some.inj (hsess.symm.trans rfl)
  obtain rfl : cipherLen = 0 := Option.some.inj (hcipher.symm.trans rfl)
  obtain rfl : compLen = 0 := Option.some.inj (hcomp.symm.trans rfl)
  obtain rfl : extTotal = 10 := Option.some.inj (htotal.symm.trans rfl)
  exact ⟨rfl, rfl⟩

/-- There is one extension, and nothing behind it. -/
theorem emptyList_boundary {pos : Nat} (h : Boundary emptyList 50 40 pos) :
    pos = 40 ∨ pos = 50 := by
  induction h with
  | first => exact .inl rfl
  | next _ hext ih =>
      right
      rcases ih with rfl | rfl
      · rw [← Option.some.inj ((show uint16At emptyList 42 = some 6 from rfl).symm.trans
          hext.lengthAt)]
        rfl
      · cases (show uint16At emptyList 50 = none from rfl).symm.trans hext.typeAt

theorem name_outside_list :
    parseSNI emptyList = some [0x61] ∧
      ¬ ∃ data, Carries emptyList tlsExtSNI data ∧ Genuine data [0x61] := by
  refine ⟨emptyList_parse, ?_⟩
  rintro ⟨data, ⟨start, total, pos, extLen, hblock, hpos, hext⟩, listLen, hlist, _, hentry⟩
  obtain ⟨rfl, rfl⟩ := emptyList_block hblock
  rcases emptyList_boundary hpos with rfl | rfl
  · obtain rfl : extLen = 6 := Option.some.inj (hext.lengthAt.symm.trans rfl)
    obtain rfl : data = [0, 0, 0, 0, 1, 0x61] := Option.some.inj (hext.dataAt.symm.trans rfl)
    obtain rfl : listLen = 0 := Option.some.inj (hlist.symm.trans rfl)
    cases hentry with
    | first htype _ _ => cases htype
    | later hlen _ _ => cases hlen
  · cases hext.typeAt

end AiInterceptor.Theorems.ServerName
