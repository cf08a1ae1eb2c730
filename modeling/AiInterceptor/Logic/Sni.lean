import AiInterceptor.Proxy.Tls

/-!
# `parseSNI` stays in bounds

Every index and slice of the parser is guarded by a length check that covers it,
so no input makes it panic.
-/

namespace AiInterceptor.Proxy

open Lib Go

theorem slice_isSome {s : List UInt8} {lo hi : Nat} (hlo : lo ≤ hi) (hhi : hi ≤ s.length) :
    ∃ t, slice s lo hi = some t ∧ t.length = hi - lo := by
  refine ⟨_, slice_eq_some hlo hhi, ?_⟩
  rw [List.length_take, List.length_drop]
  omega

theorem uint16At_isSome {s : List UInt8} {pos : Nat} (h : pos + 2 ≤ s.length) :
    ∃ v, uint16At s pos = some v := by
  obtain ⟨t, ht, _⟩ := slice_isSome (Nat.le_add_right pos 2) h
  exact ⟨_, by rw [uint16At, ht, Option.map_some]⟩

theorem index_isSome {s : List UInt8} {i : Nat} (h : i < s.length) : ∃ b, index s i = some b :=
  ⟨_, List.getElem?_eq_getElem h⟩

theorem serverName_isSome {hello : List UInt8} {extType : UInt16} {pos extLen : Nat}
    (h : pos + extLen ≤ hello.length) :
    ∃ r, serverName hello extType pos extLen = some r := by
  rw [serverName]
  by_cases hsni : extType = tlsExtSNI ∧ sniExtMinLen ≤ extLen
  · have hmin : 5 ≤ extLen := hsni.2
    obtain ⟨ext, hext, hlen⟩ := slice_isSome (Nat.le_add_right pos extLen) h
    have hext5 : sniNameLenOffset + 2 ≤ ext.length := by
      show 3 + 2 ≤ _
      omega
    obtain ⟨nameLen, hname⟩ := uint16At_isSome hext5
    rw [if_pos hsni]
    simp only [hext, hname, Option.bind_eq_bind, Option.bind_some]
    by_cases hfit : sniNameOffset + nameLen.toNat ≤ ext.length
    · obtain ⟨name, hslice, _⟩ := slice_isSome (Nat.le_add_right sniNameOffset nameLen.toNat) hfit
      rw [if_pos hfit, hslice]
      exact ⟨_, rfl⟩
    · rw [if_neg hfit]
      exact ⟨_, rfl⟩
  · rw [if_neg hsni]
    exact ⟨_, rfl⟩

/-- The loop stays below `stop`, and `stop` within the buffer. -/
theorem extensionLoop_isSome {hello : List UInt8} {stop : Nat} (hstop : stop ≤ hello.length)
    (pos : Nat) : ∃ host, extensionLoop hello stop pos = some host := by
  induction pos using extensionLoop.induct hello stop with
  | case1 pos hpos extType extLen htype hlen hover =>
      rw [extensionLoop, dif_pos hpos, htype, hlen]
      exact ⟨[], if_pos hover⟩
  | case2 pos hpos extType extLen htype hlen hover hnone =>
      -- the extension fits, so reading its name cannot run out of bounds
      obtain ⟨r, hr⟩ := @serverName_isSome hello extType (pos + tlsExtHdrLen) extLen.toNat
        (by omega)
      rw [hr] at hnone
      cases hnone
  | case3 pos hpos extType extLen htype hlen hover name hname =>
      rw [extensionLoop, dif_pos hpos, htype, hlen]
      simp only [if_neg hover, hname]
      exact ⟨name, rfl⟩
  | case4 pos hpos extType extLen htype hlen hover hname ih =>
      rw [extensionLoop, dif_pos hpos, htype, hlen]
      simp only [if_neg hover, hname]
      exact ih
  | case5 pos hpos hbad =>
      -- the loop's guard leaves room for the type and the length
      have hhdr : pos + 4 ≤ stop := hpos
      obtain ⟨extType, htype⟩ := @uint16At_isSome hello pos (by omega)
      obtain ⟨extLen, hlen⟩ := @uint16At_isSome hello (pos + 2) (by omega)
      exact absurd hlen (hbad extType extLen htype)
  | case6 pos hpos =>
      rw [extensionLoop, dif_neg hpos]
      exact ⟨[], rfl⟩

theorem parseSNI_isSome (hello : List UInt8) : ∃ host, parseSNI hello = some host := by
  -- each guard is what the next read needs
  rw [parseSNI]
  split
  · exact ⟨[], rfl⟩
  dsimp only
  split
  · exact ⟨[], rfl⟩
  rename_i hsess
  obtain ⟨sessLen, hs⟩ := @index_isSome hello clientHelloRandOffset (by omega)
  simp only [hs, Option.bind_eq_bind, Option.bind_some]
  split
  · exact ⟨[], rfl⟩
  rename_i hcipher
  obtain ⟨cipherLen, hc⟩ := @uint16At_isSome hello _ (Nat.le_of_not_lt hcipher)
  simp only [hc, Option.bind_some]
  split
  · exact ⟨[], rfl⟩
  rename_i hcomp
  obtain ⟨compLen, hm⟩ := @index_isSome hello _ (Nat.le_of_not_lt hcomp)
  simp only [hm, Option.bind_some]
  split
  · exact ⟨[], rfl⟩
  rename_i hext
  obtain ⟨extTotal, he⟩ := @uint16At_isSome hello _ (Nat.le_of_not_lt hext)
  simp only [he, Option.bind_some]
  exact extensionLoop_isSome (min_le_right _ _) _

theorem recordHost_isSome (recData : List UInt8) : ∃ host, recordHost recData = some host := by
  rw [recordHost]
  split
  · exact ⟨[], rfl⟩
  rename_i hlen
  have hhdr : 4 ≤ recData.length := Nat.le_of_not_lt hlen
  obtain ⟨b0, h0⟩ := @index_isSome recData 0 (by omega)
  obtain ⟨b1, h1⟩ := @index_isSome recData 1 (by omega)
  obtain ⟨b2, h2⟩ := @index_isSome recData 2 (by omega)
  obtain ⟨b3, h3⟩ := @index_isSome recData 3 (by omega)
  simp only [h0, h1, h2, h3, Option.bind_eq_bind, Option.bind_some]
  split
  · exact ⟨[], rfl⟩
  split
  · exact ⟨[], rfl⟩
  rename_i hhs
  obtain ⟨hello, hslice, _⟩ := slice_isSome (Nat.le_add_right _ _) (Nat.le_of_not_lt hhs)
  rw [hslice]
  exact parseSNI_isSome hello

/-! ## `extractSNI` -/

/-- A read fails; or one record is read, and the host is the one in its data. -/
theorem extractSNI_cases (conn : Conn) (b : UInt8) :
    (∃ e rest, extractSNI conn b = (some ⟨[], [], some e⟩, rest)) ∨
      ∃ hdr recLen recData host conn₁ rest,
        conn.readFull tlsRecordHdrTail [] = ((hdr, none), conn₁) ∧
        uint16At hdr tlsRecordLenOffset = some recLen ∧
        conn₁.readFull recLen.toNat [] = ((recData, none), rest) ∧
        recordHost recData = some host ∧
        extractSNI conn b = (some ⟨host, [b] ++ hdr ++ recData, none⟩, rest) := by
  unfold extractSNI
  have hlen := Source.readFull_length tlsRecordHdrTail [] conn
  cases hr : conn.readFull tlsRecordHdrTail [] with
  | mk out conn₁ =>
      obtain ⟨hdr, err⟩ := out
      rw [hr] at hlen
      cases err with
      | some e => exact .inl ⟨e, conn₁, rfl⟩
      | none =>
          -- the header is complete, so its length field is there
          have hhdr : tlsRecordLenOffset + 2 ≤ hdr.length := by
            rw [show hdr.length = _ from hlen rfl]
            decide
          obtain ⟨recLen, hrec⟩ := uint16At_isSome hhdr
          dsimp only
          rw [hrec]
          dsimp only
          cases hr' : conn₁.readFull recLen.toNat [] with
          | mk out' conn₂ =>
              obtain ⟨recData, err'⟩ := out'
              cases err' with
              | some e => exact .inl ⟨e, conn₂, rfl⟩
              | none =>
                  obtain ⟨host, hhost⟩ := recordHost_isSome recData
                  refine .inr ⟨hdr, recLen, recData, host, conn₁, conn₂, rfl, hrec, hr', hhost, ?_⟩
                  show ((recordHost recData).map _, conn₂) = _
                  rw [hhost, Option.map_some]

end AiInterceptor.Proxy
