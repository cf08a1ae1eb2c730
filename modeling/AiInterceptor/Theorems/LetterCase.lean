import AiInterceptor.Theorems.AnswerOrder
import AiInterceptor.Logic.Runes

/-!
# Letter case

Names are compared byte for byte, in the suffix test and in every lookup of the
CNAME map; nothing folds case. So the bytes of a message and of the entries say
which addresses are written (`Reaches`), and a change of case loses every address
they no longer reach. It loses none when it is one of spelling throughout: names
that were equal stay equal, different ones stay different, and a name that ends
with an entry ends with the respelled one. The two runs of the loops are then in
step (`Agree`), entry by entry.
-/

namespace AiInterceptor.Theorems.LetterCase

open Lib Bpf Go Agent Destinations AnswerOrder

/-! ## Names by their bytes -/

/-- The bytes of the name are those of the entry, or end with a dot and those of
the entry. -/
def SpelledBy (entry name : GoString) : Prop := name = entry ∨ ascii "." ++ entry <:+ name

instance (entry name : GoString) : Decidable (SpelledBy entry name) :=
  inferInstanceAs (Decidable (_ ∨ _))

def Spelled (entries : List GoString) (name : GoString) : Prop :=
  ∃ entry ∈ entries, SpelledBy entry name

instance (entries : List GoString) (name : GoString) : Decidable (Spelled entries name) :=
  inferInstanceAs (Decidable (∃ entry ∈ entries, SpelledBy entry name))

/-- The name an alias stands for, by the records up to here, the last one first. A
record makes its target an alias when its owner is spelled like an entry or is an
alias already, byte for byte. -/
def aliasOf (entries : List GoString) : List RR → GoString → Option GoString
  | [], _ => none
  | .cname hdr target :: earlier, name =>
      if trimDot target = name then
        if Spelled entries (trimDot hdr.name) then some (trimDot hdr.name)
        else (aliasOf entries earlier (trimDot hdr.name)).or (aliasOf entries earlier name)
      else aliasOf entries earlier name
  | _ :: earlier, name => aliasOf entries earlier name

/-- The message gives the address to a name spelled like an entry, or to an alias of
one other than the empty name. -/
def Reaches (entries : List GoString) (answer : List RR) (ip4 : Ip4) : Prop :=
  ∃ name, HasAddress answer name ip4 ∧
    (Spelled entries name ∨
      ∃ origin, origin ≠ [] ∧ aliasOf entries answer.reverse name = some origin)

/-- The owner name of a record, trailing dot removed. -/
def ownerOf : RR → GoString
  | .cname hdr _ | .a hdr _ | .other hdr => trimDot hdr.name

section Bytes

variable {svc : Service} {answer : List RR} {name : GoString}

theorem isAIDomain_iff_spelled : svc.isAIDomain name = true ↔ Spelled svc.aiDomains name := by
  unfold Service.isAIDomain Spelled SpelledBy hasSuffix
  simp only [List.any_eq_true, Bool.or_eq_true, beq_iff_eq, decide_eq_true_eq]

/-- The map of the first loop is `aliasOf`. -/
theorem aiCNAMEs_eq_aliasOf (svc : Service) (answer : List RR) (name : GoString) :
    svc.aiCNAMEs answer name = aliasOf svc.aiDomains answer.reverse name := by
  -- the loop appends records, `aliasOf` takes them off again from the last one on
  induction answer using List.reverseRecOn generalizing name with
  | nil => rfl
  | append_singleton init rr ih =>
      have hlast : svc.aiCNAMEs (init ++ [rr]) = svc.cnameStep (svc.aiCNAMEs init) rr := by
        rw [Service.aiCNAMEs, List.foldl_append]
        rfl
      rw [hlast, List.reverse_append, List.reverse_singleton, List.singleton_append]
      cases rr with
      | a hdr addr => exact ih name
      | other hdr => exact ih name
      | cname hdr target =>
          have hupdate : ∀ origin, Function.update (svc.aiCNAMEs init) (trimDot target)
              (some origin) name =
                if trimDot target = name then some origin else svc.aiCNAMEs init name := by
            intro origin
            by_cases htarget : trimDot target = name
            · rw [if_pos htarget, htarget, Function.update_self]
            · rw [if_neg htarget, Function.update_of_ne (Ne.symm htarget)]
          rw [aliasOf, ← ih name, ← ih (trimDot hdr.name)]
          by_cases hai : svc.isAIDomain (trimDot hdr.name) = true
          · rw [cnameStep_ai hai, hupdate, if_pos (isAIDomain_iff_spelled.mp hai)]
          · rw [if_neg (mt isAIDomain_iff_spelled.mpr hai)]
            cases hm : svc.aiCNAMEs init (trimDot hdr.name) with
            | none => rw [cnameStep_unknown hai hm, Option.none_or, ite_self]
            | some origin => rw [cnameStep_chained hai hm, hupdate, Option.some_or]

theorem mem_writtenKeys_iff_reaches {o : ByteOrder} {key : List UInt8} :
    key ∈ svc.writtenKeys o answer ↔
      ∃ ip4, Reaches svc.aiDomains answer ip4 ∧ destKey o ip4 = key := by
  rw [mem_writtenKeys]
  constructor
  · rintro ⟨name, ip4, rfl, haddr, hrec⟩
    rw [Recognised, isAIDomain_iff_spelled, aiCNAMEs_eq_aliasOf] at hrec
    exact ⟨ip4, ⟨name, haddr, hrec⟩, rfl⟩
  · rintro ⟨ip4, ⟨name, haddr, hname⟩, rfl⟩
    rw [← isAIDomain_iff_spelled, ← aiCNAMEs_eq_aliasOf] at hname
    exact ⟨name, ip4, rfl, haddr, hname⟩

/-- The keys written are those of the addresses reached. -/
theorem writtenKeys_eq_image (o : ByteOrder) (svc : Service) (answer : List RR) :
    svc.writtenKeys o answer = destKey o '' {ip4 | Reaches svc.aiDomains answer ip4} := by
  ext key
  exact mem_writtenKeys_iff_reaches

/-- Aliases start from an owner spelled like an entry. -/
theorem aliasOf_eq_none {entries : List GoString} {earlier : List RR}
    (h : ∀ rr ∈ earlier, ¬ Spelled entries (ownerOf rr)) (name : GoString) :
    aliasOf entries earlier name = none := by
  induction earlier generalizing name with
  | nil => rfl
  | cons rr earlier ih =>
      have hearlier := ih fun rr hrr => h rr (List.mem_cons_of_mem _ hrr)
      cases rr with
      | a hdr addr => exact hearlier name
      | other hdr => exact hearlier name
      | cname hdr target =>
          have howner : ¬ Spelled entries (trimDot hdr.name) := h _ List.mem_cons_self
          rw [aliasOf, if_neg howner, hearlier name, hearlier (trimDot hdr.name)]
          exact ite_self _

theorem not_reaches {entries : List GoString} (h : ∀ rr ∈ answer, ¬ Spelled entries (ownerOf rr))
    (ip4 : Ip4) : ¬ Reaches entries answer ip4 := by
  rintro ⟨name, ⟨hdr, addr, hmem, rfl, _⟩, hspelled | ⟨origin, _, halias⟩⟩
  · exact h _ hmem hspelled
  · rw [aliasOf_eq_none fun rr hrr => h rr (List.mem_reverse.mp hrr)] at halias
    exact absurd halias (by simp)

end Bytes

/-! ## Case variants -/

/-- Equal up to the case of ASCII letters. -/
def CaseEq (a b : GoString) : Prop := a.map lowerByte = b.map lowerByte

instance (a b : GoString) : Decidable (CaseEq a b) := inferInstanceAs (Decidable (_ = _))

/-- Records that differ in the letter case of their names only. -/
inductive CaseVariant : RR → RR → Prop
  | cname {hdr hdr' : RRHeader} {t t' : GoString} : CaseEq hdr.name hdr'.name →
      hdr.ttl = hdr'.ttl → CaseEq t t' → CaseVariant (.cname hdr t) (.cname hdr' t')
  | a {hdr hdr' : RRHeader} {addr : IP} : CaseEq hdr.name hdr'.name → hdr.ttl = hdr'.ttl →
      CaseVariant (.a hdr addr) (.a hdr' addr)
  | other {hdr hdr' : RRHeader} : CaseEq hdr.name hdr'.name → hdr.ttl = hdr'.ttl →
      CaseVariant (.other hdr) (.other hdr')

/-- The names at the same place of two records, trailing dots removed. -/
def namePairs : RR → RR → List (GoString × GoString)
  | .cname hdr t, .cname hdr' t' =>
      [(trimDot hdr.name, trimDot hdr'.name), (trimDot t, trimDot t')]
  | .a hdr _, .a hdr' _ => [(trimDot hdr.name, trimDot hdr'.name)]
  | _, _ => []

/-- The names at the same place of two messages. -/
def messagePairs (answer answer' : List RR) : List (GoString × GoString) :=
  (List.zipWith namePairs answer answer').flatten

/-- The second message and list are the first in another spelling: two names have the
same bytes in it exactly when they had before, and a name is spelled by an entry in it
exactly when it was before. -/
structure Respelled (entries entries' : List GoString) (answer answer' : List RR) : Prop where
  names : ∀ p ∈ messagePairs answer answer', ∀ q ∈ messagePairs answer answer',
    p.1 = q.1 ↔ p.2 = q.2
  suffixes : ∀ p ∈ messagePairs answer answer', ∀ e ∈ entries.zip entries',
    SpelledBy e.1 p.1 ↔ SpelledBy e.2 p.2

/-- An entry of either list has its counterpart in the other. -/
theorem Respelled.spelled {entries entries' : List GoString} {answer answer' : List RR}
    (h : Respelled entries entries' answer answer') (hlen : entries.length = entries'.length)
    {p : GoString × GoString} (hp : p ∈ messagePairs answer answer') :
    Spelled entries p.1 ↔ Spelled entries' p.2 := by
  constructor
  · rintro ⟨entry, hentry, hby⟩
    rw [← List.map_fst_zip hlen.le] at hentry
    obtain ⟨e, he, rfl⟩ := List.mem_map.mp hentry
    exact ⟨e.2, (List.of_mem_zip he).2, (h.suffixes p hp e he).mp hby⟩
  · rintro ⟨entry, hentry, hby⟩
    rw [← List.map_snd_zip hlen.ge] at hentry
    obtain ⟨e, he, rfl⟩ := List.mem_map.mp hentry
    exact ⟨e.1, (List.of_mem_zip he).1, (h.suffixes p hp e he).mpr hby⟩

/-- What is left of the two lists in a run of the loops: which names they accept. -/
theorem Respelled.status {svc svc' : Service} {answer answer' : List RR}
    (h : Respelled svc.aiDomains svc'.aiDomains answer answer')
    (hlen : svc.aiDomains.length = svc'.aiDomains.length) :
    ∀ p ∈ messagePairs answer answer', svc.isAIDomain p.1 = svc'.isAIDomain p.2 := by
  intro p hp
  rw [Bool.eq_iff_iff, isAIDomain_iff_spelled, isAIDomain_iff_spelled]
  exact h.spelled hlen hp

/-! ## Empty names

The empty string is the sentinel of the second loop; a case variant of a name is
empty exactly when the name is. -/

theorem trimDot_eq_nil_iff (s : GoString) : trimDot s = [] ↔ s = [] ∨ s = ascii "." := by
  by_cases hsuf : ascii "." <:+ s
  · obtain ⟨front, rfl⟩ := hsuf
    rw [trimDot_dot]
    constructor
    · rintro rfl
      exact .inr rfl
    · rintro (h | h)
      · simp [ascii] at h
      · simpa using h
  · have htrim : trimDot s = s := by
      rw [trimDot, trimSuffix, if_neg]
      simpa [hasSuffix] using hsuf
    rw [htrim]
    refine ⟨.inl, ?_⟩
    rintro (h | rfl)
    · exact h
    · exact absurd (List.suffix_refl _) hsuf

theorem CaseEq.symm {a b : GoString} (h : CaseEq a b) : CaseEq b a := Eq.symm h

theorem CaseEq.trimDot_nil {a b : GoString} (h : CaseEq a b) (ha : trimDot a = []) :
    trimDot b = [] := by
  rw [trimDot_eq_nil_iff] at ha ⊢
  rcases ha with rfl | rfl
  · exact .inl (List.map_eq_nil_iff.mp (Eq.symm h))
  · right
    obtain ⟨c, rest, rfl, hc, hrest⟩ := List.map_eq_cons_iff.mp (Eq.symm h)
    rw [lowerByte_eq (by decide) hc, List.map_eq_nil_iff.mp hrest]
    rfl

/-! ## Two runs in step -/

/-- At the names of `pairs`, both maps have an entry or none, and both entries
are the sentinel or none is. -/
def Agree (pairs : List (GoString × GoString)) (m m' : StringMap) : Prop :=
  ∀ p ∈ pairs, (m p.1).map List.isEmpty = (m' p.2).map List.isEmpty

section Step

variable {svc svc' : Service} {pairs : List (GoString × GoString)} {m m' : StringMap}

theorem Agree.update (h : Agree pairs m m') {t t' v v' : GoString}
    (hcons : ∀ p ∈ pairs, p.1 = t ↔ p.2 = t') (hv : v.isEmpty = v'.isEmpty) :
    Agree pairs (Function.update m t (some v)) (Function.update m' t' (some v')) := by
  intro p hp
  by_cases hpt : p.1 = t
  · have hpt' : p.2 = t' := (hcons p hp).mp hpt
    rw [hpt, hpt', Function.update_self, Function.update_self, Option.map_some, Option.map_some, hv]
  · have hpt' : p.2 ≠ t' := fun heq => hpt ((hcons p hp).mpr heq)
    rw [Function.update_of_ne hpt, Function.update_of_ne hpt']
    exact h p hp

theorem CaseEq.trimDot_isEmpty {a b : GoString} (h : CaseEq a b) :
    (trimDot a).isEmpty = (trimDot b).isEmpty := by
  rw [Bool.eq_iff_iff, List.isEmpty_iff, List.isEmpty_iff]
  exact ⟨h.trimDot_nil, h.symm.trimDot_nil⟩

variable (hstatus : ∀ p ∈ pairs, svc.isAIDomain p.1 = svc'.isAIDomain p.2)
  (hcons : ∀ p ∈ pairs, ∀ q ∈ pairs, p.1 = q.1 ↔ p.2 = q.2)

include hstatus

section Loops

include hcons

theorem Agree.step (h : Agree pairs m m') {rr rr' : RR} (hvar : CaseVariant rr rr')
    (hpairs : ∀ p ∈ namePairs rr rr', p ∈ pairs) :
    Agree pairs (svc.cnameStep m rr) (svc'.cnameStep m' rr') := by
  cases hvar with
  | a _ _ => exact h
  | other _ _ => exact h
  | @cname hdr hdr' t t' hname _ _ =>
      have hsrc := hpairs (trimDot hdr.name, trimDot hdr'.name) (by simp [namePairs])
      have htgt := hpairs (trimDot t, trimDot t') (by simp [namePairs])
      -- two names are the same entry on one side only if they are on the other
      have hat : ∀ p ∈ pairs, p.1 = trimDot t ↔ p.2 = trimDot t' := fun p hp => hcons p hp _ htgt
      have hsame : svc.isAIDomain (trimDot hdr.name) = svc'.isAIDomain (trimDot hdr'.name) :=
        hstatus _ hsrc
      have hlookup : (m (trimDot hdr.name)).map List.isEmpty =
          (m' (trimDot hdr'.name)).map List.isEmpty := h _ hsrc
      by_cases hai : svc.isAIDomain (trimDot hdr.name) = true
      · rw [cnameStep_ai hai, cnameStep_ai (hsame ▸ hai)]
        exact h.update hat hname.trimDot_isEmpty
      · cases hm : m (trimDot hdr.name) with
        | none =>
            rw [hm] at hlookup
            rw [cnameStep_unknown hai hm,
              cnameStep_unknown (hsame ▸ hai) (Option.map_eq_none_iff.mp hlookup.symm)]
            exact h
        | some origin =>
            rw [hm] at hlookup
            obtain ⟨origin', hm', hempty⟩ := Option.map_eq_some_iff.mp hlookup.symm
            rw [cnameStep_chained hai hm, cnameStep_chained (hsame ▸ hai) hm']
            exact h.update hat hempty.symm

/-- The first loop keeps the maps in step. -/
theorem Agree.foldl {rrs rrs' : List RR} (hvar : List.Forall₂ CaseVariant rrs rrs')
    (hpairs : ∀ p ∈ messagePairs rrs rrs', p ∈ pairs) (h : Agree pairs m m') :
    Agree pairs (rrs.foldl svc.cnameStep m) (rrs'.foldl svc'.cnameStep m') := by
  induction hvar generalizing m m' with
  | nil => exact h
  | @cons rr rr' rest rest' hrr _ ih =>
      have hsplit : messagePairs (rr :: rest) (rr' :: rest') =
          namePairs rr rr' ++ messagePairs rest rest' := rfl
      rw [hsplit] at hpairs
      exact ih (fun p hp => hpairs p (List.mem_append_right _ hp))
        (h.step hstatus hcons hrr fun p hp => hpairs p (List.mem_append_left _ hp))

end Loops

/-- The second loop recognises the same names in both. -/
theorem Agree.aiHostname (h : Agree pairs m m') {p : GoString × GoString} (hp : p ∈ pairs) :
    (svc.aiHostname m p.1).isSome = (svc'.aiHostname m' p.2).isSome := by
  have hlookup := h p hp
  unfold Service.aiHostname
  rw [hstatus p hp]
  cases hai : svc'.isAIDomain p.2 with
  | true => rfl
  | false =>
      cases hm : m p.1 with
      | none =>
          rw [hm] at hlookup
          rw [Option.map_eq_none_iff.mp hlookup.symm]
          rfl
      | some origin =>
          rw [hm] at hlookup
          obtain ⟨origin', hm', hempty⟩ := Option.map_eq_some_iff.mp hlookup.symm
          have hnil : origin' = [] ↔ origin = [] := by
            rw [← List.isEmpty_iff, ← List.isEmpty_iff, hempty]
          rw [hm']
          by_cases ho : origin = []
          · simp [ho, hnil.mpr ho]
          · simp [ho, mt hnil.mp ho]

omit hstatus in
/-- The address an A record writes. -/
theorem destinationOf_ip4 (svc : Service) (m : StringMap) (hdr : RRHeader) (addr : IP) :
    (svc.destinationOf m (.a hdr addr)).map Destination.ip4 =
      if (svc.aiHostname m (trimDot hdr.name)).isSome then to4 addr else none := by
  unfold Service.destinationOf
  cases hip : to4 addr with
  | none => simp [hip]
  | some ip4 => cases hhost : svc.aiHostname m (trimDot hdr.name) <;> simp [hip, hhost]

/-- The second loop writes the same addresses. -/
theorem Agree.destinations (h : Agree pairs m m') {rrs rrs' : List RR}
    (hvar : List.Forall₂ CaseVariant rrs rrs')
    (hpairs : ∀ p ∈ messagePairs rrs rrs', p ∈ pairs) :
    (rrs.filterMap (svc.destinationOf m)).map Destination.ip4 =
      (rrs'.filterMap (svc'.destinationOf m')).map Destination.ip4 := by
  induction hvar with
  | nil => rfl
  | @cons rr rr' rest rest' hrr _ ih =>
      have hsplit : messagePairs (rr :: rest) (rr' :: rest') =
          namePairs rr rr' ++ messagePairs rest rest' := rfl
      rw [hsplit] at hpairs
      have hone : (svc.destinationOf m rr).map Destination.ip4 =
          (svc'.destinationOf m' rr').map Destination.ip4 := by
        cases hrr with
        | cname _ _ _ => rfl
        | other _ _ => rfl
        | @a hdr hdr' addr _ _ =>
            have hsome := h.aiHostname hstatus
              (hpairs (trimDot hdr.name, trimDot hdr'.name) (by simp [namePairs]))
            rw [destinationOf_ip4, destinationOf_ip4, hsome]
      have hrest := ih fun p hp => hpairs p (List.mem_append_right _ hp)
      rw [List.map_filterMap, List.map_filterMap] at hrest ⊢
      rw [List.filterMap_cons, List.filterMap_cons, hone, hrest]

end Step

/-- Two messages in step write the same keys. -/
theorem Respelled.writtenKeys {svc svc' : Service} {answer answer' : List RR}
    (h : Respelled svc.aiDomains svc'.aiDomains answer answer')
    (hlen : svc.aiDomains.length = svc'.aiDomains.length)
    (hrecords : List.Forall₂ CaseVariant answer answer') (o : ByteOrder) :
    svc.writtenKeys o answer = svc'.writtenKeys o answer' := by
  have hstatus := h.status hlen
  have hagree : Agree (messagePairs answer answer') (svc.aiCNAMEs answer)
      (svc'.aiCNAMEs answer') :=
    Agree.foldl hstatus h.names hrecords (fun _ hp => hp) fun _ _ => rfl
  have hips := hagree.destinations hstatus hrecords fun _ hp => hp
  have hkeys : ∀ (svc : Service) (answer : List RR), svc.writtenKeys o answer =
      {key | key ∈ ((svc.processAnswer answer).map Destination.ip4).map (destKey o)} := by
    intro svc answer
    rw [List.map_map]
    rfl
  rw [hkeys, hkeys, Service.processAnswer, Service.processAnswer, hips]

/-- **Byte-wise names.** For two messages, and two lists of entries, that differ in
letter case only: the first writes exactly the addresses its bytes reach, the second
misses exactly those of them that its own do not, and both write the same keys exactly
when they reach the same addresses. They do if the second is a consistent spelling of
the first; without an owner name spelled like an entry it writes nothing at all. -/
theorem names_matched_bytewise (o : ByteOrder) (svc svc' : Service) (answer answer' : List RR)
    (hentries : List.Forall₂ CaseEq svc.aiDomains svc'.aiDomains)
    (hrecords : List.Forall₂ CaseVariant answer answer') :
    svc.writtenKeys o answer = destKey o '' {ip4 | Reaches svc.aiDomains answer ip4} ∧
    svc.writtenKeys o answer \ svc'.writtenKeys o answer' =
      destKey o '' {ip4 | Reaches svc.aiDomains answer ip4 ∧
        ¬ Reaches svc'.aiDomains answer' ip4} ∧
    (svc.writtenKeys o answer = svc'.writtenKeys o answer' ↔
      ∀ ip4, Reaches svc.aiDomains answer ip4 ↔ Reaches svc'.aiDomains answer' ip4) ∧
    (Respelled svc.aiDomains svc'.aiDomains answer answer' →
      svc.writtenKeys o answer = svc'.writtenKeys o answer') ∧
    ((∀ rr ∈ answer', ¬ Spelled svc'.aiDomains (ownerOf rr)) →
      svc'.writtenKeys o answer' = ∅) := by
  refine ⟨writtenKeys_eq_image o svc answer, ?_, ?_, ?_, ?_⟩
  · rw [writtenKeys_eq_image, writtenKeys_eq_image, ← Set.image_sdiff (destKey_injective o)]
    rfl
  · rw [writtenKeys_eq_image, writtenKeys_eq_image,
      Set.image_eq_image (destKey_injective o), Set.ext_iff]
    rfl
  · intro h
    exact h.writtenKeys hentries.length_eq hrecords o
  · intro hnone
    rw [writtenKeys_eq_image, Set.image_eq_empty]
    exact Set.eq_empty_of_forall_notMem fun ip4 => not_reaches hnone ip4

/-- A message through a canonical name: in another spelling of that name, used
throughout, and in another spelling of the AI domain. -/
theorem names_matched_bytewise_cdn :
    let svc : Service := ⟨[ascii "openai.com"]⟩
    let message (owner cdn : String) : List RR :=
      [.cname ⟨ascii owner, 60⟩ (ascii cdn), .a ⟨ascii cdn, 60⟩ [104, 18, 33, 45]]
    destKey .little ⟨104, 18, 33, 45⟩ ∈
        svc.writtenKeys .little (message "api.openai.com." "cdn.net.") ∧
      svc.writtenKeys .little (message "api.openai.com." "cdn.net.") =
        svc.writtenKeys .little (message "api.openai.com." "CDN.Net.") ∧
      svc.writtenKeys .little (message "aPi.OpEnAI.cOm." "cdn.net.") = ∅ := by
  intro svc message
  have hentries : List.Forall₂ CaseEq svc.aiDomains svc.aiDomains := .cons rfl .nil
  obtain ⟨hexact, _, _, hsame, _⟩ := names_matched_bytewise .little svc svc
    (message "api.openai.com." "cdn.net.") (message "api.openai.com." "CDN.Net.") hentries
    (.cons (.cname rfl rfl (by decide)) (.cons (.a (by decide) rfl) .nil))
  obtain ⟨_, _, _, _, hmissed⟩ := names_matched_bytewise .little svc svc
    (message "api.openai.com." "cdn.net.") (message "aPi.OpEnAI.cOm." "cdn.net.") hentries
    (.cons (.cname (by decide) rfl rfl) (.cons (.a rfl rfl) .nil))
  refine ⟨?_, hsame ⟨by decide, by decide⟩, hmissed (by decide)⟩
  rw [hexact]
  refine Set.mem_image_of_mem _ ⟨ascii "cdn.net", ?_, .inr ⟨ascii "api.openai.com", ?_⟩⟩
  · exact ⟨⟨ascii "cdn.net.", 60⟩, [104, 18, 33, 45], .tail _ (.head _), by decide, by decide⟩
  · exact ⟨by decide, by decide⟩

/-- An A record of an AI domain, in the spelling of a resolver that randomises
letter case, is not written. -/
theorem mixed_case_missed :
    let svc : Service := ⟨[ascii "openai.com"]⟩
    let message (name : String) : List RR := [.a ⟨ascii name, 60⟩ [104, 18, 33, 45]]
    List.Forall₂ CaseVariant (message "api.openai.com.") (message "aPi.OpEnAI.cOm.") ∧
      svc.writtenKeys .little (message "api.openai.com.") ≠
        svc.writtenKeys .little (message "aPi.OpEnAI.cOm.") := by
  intro svc message
  refine ⟨.cons (.a (by decide) rfl) .nil, ?_⟩
  intro h
  have hmem : destKey .little ⟨104, 18, 33, 45⟩ ∈
      svc.writtenKeys .little (message "api.openai.com.") := by
    have hone : svc.processAnswer (message "api.openai.com.") =
        [⟨⟨104, 18, 33, 45⟩, ascii "api.openai.com", 60⟩] := by decide
    rw [Service.writtenKeys, hone]
    simp
  rw [h] at hmem
  have hnone : svc.processAnswer (message "aPi.OpEnAI.cOm.") = [] := by decide
  rw [Service.writtenKeys, hnone] at hmem
  exact absurd hmem (by simp)

end AiInterceptor.Theorems.LetterCase
