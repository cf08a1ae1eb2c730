import AiInterceptor.Theorems.Destinations

/-!
# The order of the records

A CNAME chain is followed in one forward pass, so a hop that stands before the
one leading to it is lost. What a message writes whatever the order of its
records are the addresses of AI domains and of the direct targets of AI domains,
less those that the empty name can take over: with an empty entry in the list,
the empty name is an AI domain, and as the origin of a chain it is the sentinel
for "no origin". An adversary's order keeps exactly these: the records of
other names first, then those of AI domains, then those of the empty name, and
last, greedily, the hops that spread its mark.
-/

namespace AiInterceptor.Theorems.AnswerOrder

open Lib Bpf Go Agent Destinations

/-! ## Messages as sets of records -/

def HasCname (answer : List RR) (owner target : GoString) : Prop :=
  ∃ hdr t, .cname hdr t ∈ answer ∧ trimDot hdr.name = owner ∧ trimDot t = target

def HasAddress (answer : List RR) (name : GoString) (ip4 : Ip4) : Prop :=
  ∃ hdr addr, .a hdr addr ∈ answer ∧ trimDot hdr.name = name ∧ to4 addr = some ip4

/-- Reachable from an AI domain through the CNAME records, in any order. -/
inductive Reachable (svc : Service) (answer : List RR) : GoString → Prop
  | ai {name} : svc.isAIDomain name = true → Reachable svc answer name
  | hop {owner target} : Reachable svc answer owner → HasCname answer owner target →
      Reachable svc answer target

/-- Reachable from the empty name, itself an AI domain, through records of names
that are none. -/
inductive Unmarked (svc : Service) (answer : List RR) : GoString → Prop
  | root {target} : svc.isAIDomain [] = true → HasCname answer [] target →
      Unmarked svc answer target
  | hop {owner target} : Unmarked svc answer owner → svc.isAIDomain owner = false →
      HasCname answer owner target → Unmarked svc answer target

/-- Recognised in every order: an AI domain, or the direct target of one that the
empty name does not reach. -/
def Certain (svc : Service) (answer : List RR) (name : GoString) : Prop :=
  svc.isAIDomain name = true ∨
    ((∃ owner, owner ≠ [] ∧ svc.isAIDomain owner = true ∧ HasCname answer owner name) ∧
      ¬ Unmarked svc answer name)

variable {svc : Service} {answer answer' : List RR} {name : GoString}

section Perm

variable (hperm : answer.Perm answer')

include hperm

theorem hasCname_perm {owner target : GoString} (h : HasCname answer owner target) :
    HasCname answer' owner target := by
  obtain ⟨hdr, t, hmem, howner, htarget⟩ := h
  exact ⟨hdr, t, hperm.mem_iff.mp hmem, howner, htarget⟩

theorem hasAddress_perm {ip4 : Ip4} (h : HasAddress answer name ip4) :
    HasAddress answer' name ip4 := by
  obtain ⟨hdr, addr, hmem, hname, hip⟩ := h
  exact ⟨hdr, addr, hperm.mem_iff.mp hmem, hname, hip⟩

theorem Reachable.perm (h : Reachable svc answer name) : Reachable svc answer' name := by
  induction h with
  | ai hai => exact .ai hai
  | hop _ hrec ih => exact .hop ih (hasCname_perm hperm hrec)

theorem Unmarked.perm (h : Unmarked svc answer name) : Unmarked svc answer' name := by
  induction h with
  | root hai hrec => exact .root hai (hasCname_perm hperm hrec)
  | hop _ hai hrec ih => exact .hop ih hai (hasCname_perm hperm hrec)

theorem Certain.perm (h : Certain svc answer name) : Certain svc answer' name := by
  rcases h with h | ⟨⟨owner, hne, hai, hrec⟩, hun⟩
  · exact .inl h
  · exact .inr ⟨⟨owner, hne, hai, hasCname_perm hperm hrec⟩, fun h => hun (h.perm hperm.symm)⟩

end Perm

/-! ## Recognised names -/

/-- The second loop recognises the name. -/
def Recognised (svc : Service) (m : StringMap) (name : GoString) : Prop :=
  svc.isAIDomain name = true ∨ ∃ origin, origin ≠ [] ∧ m name = some origin

theorem aiHostname_isSome_iff (m : StringMap) :
    (svc.aiHostname m name).isSome = true ↔ Recognised svc m name := by
  unfold Service.aiHostname Recognised
  cases hai : svc.isAIDomain name with
  | true => simp
  | false =>
      cases hm : m name with
      | none => simp
      | some origin => by_cases ho : origin = [] <;> simp [ho]

/-- The keys written are those of the addresses of recognised names. -/
theorem mem_writtenKeys (o : ByteOrder) (svc : Service) (answer : List RR) (key : List UInt8) :
    key ∈ svc.writtenKeys o answer ↔
      ∃ name ip4, key = destKey o ip4 ∧ HasAddress answer name ip4 ∧
        Recognised svc (svc.aiCNAMEs answer) name := by
  simp only [Service.writtenKeys, Set.mem_ofPred_eq, Service.processAnswer, List.mem_map,
    List.mem_filterMap, destinationOf_eq_some, ← aiHostname_isSome_iff, Option.isSome_iff_exists]
  constructor
  · rintro ⟨d, ⟨rr, hmem, hdr, addr, rfl, hip, _, hhost⟩, rfl⟩
    exact ⟨_, d.ip4, rfl, ⟨hdr, addr, hmem, rfl, hip⟩, _, hhost⟩
  · rintro ⟨name, ip4, rfl, ⟨hdr, addr, hmem, rfl, hip⟩, host, hhost⟩
    exact ⟨⟨ip4, host, hdr.ttl⟩, ⟨_, hmem, hdr, addr, rfl, hip, rfl, hhost⟩, rfl⟩

/-! ## What every order recognises -/

theorem hasCname_of_cnameAt {i : Nat} {owner target : GoString}
    (h : cnameAt answer i = some (owner, target)) : HasCname answer owner target := by
  unfold cnameAt at h
  split at h
  · rename_i hdr t hget
    obtain ⟨rfl, rfl⟩ := Prod.mk.inj (Option.some.inj h)
    exact ⟨hdr, t, List.mem_of_getElem? hget, rfl, rfl⟩
  · exact absurd h (by simp)

theorem exists_cnameAt {owner target : GoString} (h : HasCname answer owner target) :
    ∃ i, i < answer.length ∧ cnameAt answer i = some (owner, target) := by
  obtain ⟨hdr, t, hmem, rfl, rfl⟩ := h
  obtain ⟨i, hi, hget⟩ := List.mem_iff_getElem.mp hmem
  refine ⟨i, hi, ?_⟩
  rw [cnameAt, List.getElem?_eq_getElem hi, hget]

theorem reachable_of_chainTo {i : Nat} {origin last : GoString}
    (h : ChainTo svc answer i origin last) : Reachable svc answer last := by
  induction h with
  | start hrec hai => exact .hop (.ai hai) (hasCname_of_cnameAt hrec)
  | extend _ _ hrec ih => exact .hop ih (hasCname_of_cnameAt hrec)

theorem Recognised.reachable (h : Recognised svc (svc.aiCNAMEs answer) name) :
    Reachable svc answer name := by
  rcases h with hai | ⟨origin, _, hm⟩
  · exact .ai hai
  · obtain ⟨i, _, hto⟩ := (cnameMap_spec svc answer).sound name origin hm
    exact reachable_of_chainTo hto

/-- One record spreads the mark only along its own hop. -/
theorem cnameStep_unmarked {m : StringMap} {rr : RR} (hmem : rr ∈ answer)
    (h : ∀ n, m n = some [] → Unmarked svc answer n) :
    ∀ n, svc.cnameStep m rr n = some [] → Unmarked svc answer n := by
  cases rr with
  | a hdr addr => exact h
  | other hdr => exact h
  | cname hdr t =>
      have hrec : HasCname answer (trimDot hdr.name) (trimDot t) := ⟨hdr, t, hmem, rfl, rfl⟩
      intro n hn
      -- what an empty origin says about the entry: it was written here, or stood there before
      have hupdate : ∀ origin, Function.update m (trimDot t) (some origin) n = some [] →
          (n = trimDot t ∧ origin = []) ∨ m n = some [] := by
        intro origin heq
        by_cases hnt : n = trimDot t
        · subst hnt
          rw [Function.update_self, Option.some.injEq] at heq
          exact .inl ⟨rfl, heq⟩
        · rw [Function.update_of_ne hnt] at heq
          exact .inr heq
      by_cases hai : svc.isAIDomain (trimDot hdr.name) = true
      · rw [cnameStep_ai hai] at hn
        -- the origin is the owner, so it is the root and counts as a service
        rcases hupdate _ hn with ⟨rfl, howner⟩ | hn
        · rw [howner] at hai hrec
          exact .root hai hrec
        · exact h n hn
      · cases hm : m (trimDot hdr.name) with
        | none =>
            rw [cnameStep_unknown hai hm] at hn
            exact h n hn
        | some origin =>
            rw [cnameStep_chained hai hm] at hn
            rcases hupdate _ hn with ⟨rfl, rfl⟩ | hn
            · exact .hop (h _ hm) (Bool.eq_false_iff.mpr hai) hrec
            · exact h n hn

theorem aiCNAMEs_unmarked (h : svc.aiCNAMEs answer name = some []) :
    Unmarked svc answer name := by
  have hrun : ∀ (rrs : List RR) (m : StringMap), (∀ rr ∈ rrs, rr ∈ answer) →
      (∀ n, m n = some [] → Unmarked svc answer n) →
      ∀ n, rrs.foldl svc.cnameStep m n = some [] → Unmarked svc answer n := by
    intro rrs
    induction rrs with
    | nil => exact fun m _ hm => hm
    | cons rr rest ih =>
        intro m hmem hm
        exact ih _ (fun x hx => hmem x (List.mem_cons_of_mem rr hx))
          (cnameStep_unmarked (hmem rr List.mem_cons_self) hm)
  exact hrun answer _ (fun _ h => h) (fun n hn => absurd hn (by simp)) name h

theorem Certain.recognised (h : Certain svc answer name) :
    Recognised svc (svc.aiCNAMEs answer) name := by
  rcases h with hai | ⟨⟨owner, _, hai, hrec⟩, hun⟩
  · exact .inl hai
  · obtain ⟨i, hi, hat⟩ := exists_cnameAt hrec
    obtain ⟨origin, horigin⟩ := (cnameMap_spec svc answer).complete name i owner hi (.start hat hai)
    refine .inr ⟨origin, ?_, horigin⟩
    rintro rfl
    exact hun (aiCNAMEs_unmarked horigin)

/-! ## An order that recognises nothing else -/

/-- A CNAME record of an AI domain. -/
def ownedByAI (svc : Service) : RR → Bool
  | .cname hdr _ => svc.isAIDomain (trimDot hdr.name)
  | _ => false

/-- A CNAME record of the empty name. -/
def ownedByRoot : RR → Bool
  | .cname hdr _ => decide (trimDot hdr.name = [])
  | _ => false

/-- Records of other names do nothing to the empty map. -/
theorem foldl_inert {rrs : List RR} (h : ∀ rr ∈ rrs, ownedByAI svc rr = false) :
    rrs.foldl svc.cnameStep (fun _ => none) = fun _ => none := by
  induction rrs with
  | nil => rfl
  | cons rr rest ih =>
      have hstep : svc.cnameStep (fun _ => none) rr = fun _ => none := by
        cases rr with
        | a hdr addr => rfl
        | other hdr => rfl
        | cname hdr t =>
            have hai : svc.isAIDomain (trimDot hdr.name) = false := h _ List.mem_cons_self
            exact cnameStep_unknown (by simp [hai]) rfl
      rw [List.foldl_cons, hstep]
      exact ih fun x hx => h x (List.mem_cons_of_mem rr hx)

/-- Records of AI domains write their owner, whatever the map holds. -/
theorem foldl_owned {rrs : List RR} (h : ∀ rr ∈ rrs, ownedByAI svc rr = true) (m : StringMap)
    (n : GoString) :
    (∃ owner, HasCname rrs owner n ∧ rrs.foldl svc.cnameStep m n = some owner) ∨
      ((∀ owner, ¬ HasCname rrs owner n) ∧ rrs.foldl svc.cnameStep m n = m n) := by
  induction rrs generalizing m with
  | nil => exact .inr ⟨fun owner ⟨_, _, hmem, _⟩ => absurd hmem List.not_mem_nil, rfl⟩
  | cons rr rest ih =>
      cases rr with
      | a hdr addr => exact absurd (h _ List.mem_cons_self) (by simp [ownedByAI])
      | other hdr => exact absurd (h _ List.mem_cons_self) (by simp [ownedByAI])
      | cname hdr t =>
          have hai : svc.isAIDomain (trimDot hdr.name) = true := h _ List.mem_cons_self
          rw [List.foldl_cons, cnameStep_ai hai]
          rcases ih (fun x hx => h x (List.mem_cons_of_mem _ hx))
              (Function.update m (trimDot t) (some (trimDot hdr.name))) with
            ⟨owner, ⟨hdr', t', hmem, hname, htgt⟩, heq⟩ | ⟨hnone, heq⟩
          · exact .inl ⟨owner, ⟨hdr', t', List.mem_cons_of_mem _ hmem, hname, htgt⟩, heq⟩
          -- no later record writes the entry, so this one or none does
          · rw [heq]
            by_cases hnt : n = trimDot t
            · subst hnt
              exact .inl ⟨_, ⟨hdr, t, List.mem_cons_self, rfl, rfl⟩, Function.update_self ..⟩
            · refine .inr ⟨?_, Function.update_of_ne hnt ..⟩
              rintro owner ⟨hdr', t', hmem, hname, htgt⟩
              rcases List.mem_cons.mp hmem with heq' | hmem
              · obtain ⟨_, rfl⟩ := RR.cname.inj heq'
                exact hnt htgt.symm
              · exact hnone owner ⟨hdr', t', hmem, hname, htgt⟩

/-- The hops among `rrs` that spread the mark of the empty name through the map
`m`, taken as long as there is one, and the map they leave. -/
structure Spread (svc : Service) (rrs : List RR) (m : StringMap) (taken left : List RR) :
    Prop where
  perm : rrs.Perm (taken ++ left)
  keeps : ∀ n, taken.foldl svc.cnameStep m n ≠ some [] → taken.foldl svc.cnameStep m n = m n
  marked : ∀ n, m n = some [] → taken.foldl svc.cnameStep m n = some []
  closed : ∀ owner target, HasCname rrs owner target →
    taken.foldl svc.cnameStep m owner = some [] → taken.foldl svc.cnameStep m target = some []

theorem spread_exists {rrs : List RR} (h : ∀ rr ∈ rrs, ownedByAI svc rr = false) (m : StringMap) :
    ∃ taken left, Spread svc rrs m taken left := by
  -- induction on the number of records that are left to take
  generalize hlen : rrs.length = k
  induction k generalizing rrs m with
  | zero =>
      obtain rfl := List.length_eq_zero_iff.mp hlen
      exact ⟨[], [], List.Perm.refl _, fun _ _ => rfl, fun _ hn => hn,
        fun _ _ ⟨_, _, hmem, _⟩ => absurd hmem List.not_mem_nil⟩
  | succ k ih =>
      by_cases hopen : ∃ hdr t, .cname hdr t ∈ rrs ∧ m (trimDot hdr.name) = some [] ∧
          m (trimDot t) ≠ some []
      · obtain ⟨hdr, t, hmem, howner, htarget⟩ := hopen
        have hai : svc.isAIDomain (trimDot hdr.name) = false := h _ hmem
        have hstep : svc.cnameStep m (.cname hdr t) =
            Function.update m (trimDot t) (some []) := cnameStep_chained (by simp [hai]) howner
        have hperm := List.perm_cons_erase hmem
        obtain ⟨taken, left, hsp⟩ := ih
          (fun x hx => h x (List.mem_of_mem_erase hx)) (Function.update m (trimDot t) (some []))
          (by rw [List.length_erase_of_mem hmem, hlen, Nat.add_sub_cancel])
        refine ⟨.cname hdr t :: taken, left, hperm.trans (hsp.perm.cons _), ?_, ?_, ?_⟩
        all_goals simp only [List.foldl_cons, hstep]
        · intro n hn
          have hnt : n ≠ trimDot t := by
            rintro rfl
            exact hn (hsp.marked _ (Function.update_self ..))
          rw [hsp.keeps n hn, Function.update_of_ne hnt]
        · intro n hn
          refine hsp.marked n ?_
          by_cases hnt : n = trimDot t
          · subst hnt
            exact Function.update_self ..
          · rw [Function.update_of_ne hnt, hn]
        · rintro owner target ⟨hdr', t', hmem', rfl, rfl⟩ hown
          rcases List.mem_cons.mp (hperm.mem_iff.mp hmem') with heq | hmem'
          · obtain ⟨_, rfl⟩ := RR.cname.inj heq
            exact hsp.marked _ (Function.update_self ..)
          · exact hsp.closed _ _ ⟨hdr', t', hmem', rfl, rfl⟩ hown
      · refine ⟨[], rrs, List.Perm.refl _, fun _ _ => rfl, fun _ hn => hn, ?_⟩
        rintro owner target ⟨hdr, t, hmem, rfl, rfl⟩ hown
        by_contra htgt
        exact hopen ⟨hdr, t, hmem, hown, htgt⟩

section Adversary

variable (svc : Service) (answer : List RR)

/-- The CNAME records of non-empty AI domains. -/
def named : List RR := (answer.filter (ownedByAI svc)).filter fun rr => !ownedByRoot rr

/-- Those of the empty name, when it is an AI domain. -/
def unnamed : List RR := (answer.filter (ownedByAI svc)).filter ownedByRoot

/-- All other records. -/
def foreign : List RR := answer.filter fun rr => !ownedByAI svc rr

/-- The map after the records of AI domains, the empty name last. -/
def ownedMap : StringMap :=
  (unnamed svc answer).foldl svc.cnameStep ((named svc answer).foldl svc.cnameStep fun _ => none)

end Adversary

theorem mem_named {rr : RR} (h : rr ∈ named svc answer) :
    rr ∈ answer ∧ ownedByAI svc rr = true ∧ ownedByRoot rr = false := by
  simpa [named, and_comm, and_left_comm] using h

theorem mem_unnamed {rr : RR} :
    rr ∈ unnamed svc answer ↔ rr ∈ answer ∧ ownedByAI svc rr = true ∧ ownedByRoot rr = true := by
  simp [unnamed, and_comm]

theorem hasCname_unnamed {owner : GoString} (h : HasCname (unnamed svc answer) owner name) :
    owner = [] := by
  obtain ⟨hdr, t, hmem, rfl, _⟩ := h
  exact of_decide_eq_true (mem_unnamed.mp hmem).2.2

theorem hasCname_named {owner : GoString} (h : HasCname (named svc answer) owner name) :
    owner ≠ [] ∧ svc.isAIDomain owner = true ∧ HasCname answer owner name := by
  obtain ⟨hdr, t, hmem, rfl, htarget⟩ := h
  obtain ⟨hin, hai, hroot⟩ := mem_named hmem
  exact ⟨of_decide_eq_false hroot, hai, hdr, t, hin, rfl, htarget⟩

/-- The empty name marks its targets. -/
theorem ownedMap_marked (hai : svc.isAIDomain [] = true) (h : HasCname answer [] name) :
    ownedMap svc answer name = some [] := by
  have howned : ∀ rr ∈ unnamed svc answer, ownedByAI svc rr = true :=
    fun rr hrr => (mem_unnamed.mp hrr).2.1
  rcases foldl_owned howned ((named svc answer).foldl svc.cnameStep fun _ => none) name with
    ⟨owner, hrec, heq⟩ | ⟨hnone, _⟩
  · rw [hasCname_unnamed hrec] at heq
    exact heq
  · obtain ⟨hdr, t, hmem, howner, htarget⟩ := h
    refine absurd ⟨hdr, t, mem_unnamed.mpr ⟨hmem, ?_, ?_⟩, howner, htarget⟩ (hnone [])
    · rw [ownedByAI, howner, hai]
    · rw [ownedByRoot, howner, decide_eq_true rfl]

/-- Any other entry is that of a direct target of a non-empty AI domain. -/
theorem ownedMap_named {origin : GoString} (hne : origin ≠ [])
    (h : ownedMap svc answer name = some origin) :
    ∃ owner, owner ≠ [] ∧ svc.isAIDomain owner = true ∧ HasCname answer owner name := by
  have hunnamed : ∀ rr ∈ unnamed svc answer, ownedByAI svc rr = true :=
    fun rr hrr => (mem_unnamed.mp hrr).2.1
  have hnamed : ∀ rr ∈ named svc answer, ownedByAI svc rr = true :=
    fun rr hrr => (mem_named hrr).2.1
  rcases foldl_owned hunnamed ((named svc answer).foldl svc.cnameStep fun _ => none) name with
    ⟨owner, hrec, heq⟩ | ⟨_, heq⟩
  · rw [hasCname_unnamed hrec] at heq
    exact absurd (Option.some.inj (h.symm.trans heq)) hne
  · rcases foldl_owned hnamed (fun _ => none) name with ⟨owner, hrec, _⟩ | ⟨_, heq'⟩
    · exact ⟨owner, hasCname_named hrec⟩
    · have hnone : ownedMap svc answer name = none := heq.trans heq'
      rw [hnone] at h
      exact absurd h (by simp)

/-- Some order of the records recognises certain names only. -/
theorem adversary_exists (svc : Service) (answer : List RR) :
    ∃ answer', answer.Perm answer' ∧
      ∀ name, Recognised svc (svc.aiCNAMEs answer') name → Certain svc answer name := by
  have hforeign : ∀ rr ∈ foreign svc answer, ownedByAI svc rr = false := by
    intro rr hrr
    simpa using (List.mem_filter.mp hrr).2
  obtain ⟨taken, left, hsp⟩ := spread_exists hforeign (ownedMap svc answer)
  refine ⟨left ++ (named svc answer ++ unnamed svc answer) ++ taken, ?_, ?_⟩
  · have howned := List.filter_append_perm (ownedByAI svc) answer
    have hroot := List.filter_append_perm ownedByRoot (answer.filter (ownedByAI svc))
    have hswap : (unnamed svc answer ++ named svc answer ++ (taken ++ left)).Perm
        (left ++ (named svc answer ++ unnamed svc answer) ++ taken) := by
      rw [← Multiset.coe_eq_coe]
      simp only [← Multiset.coe_add]
      abel
    exact howned.symm.trans ((hroot.symm.append hsp.perm).trans hswap)
  · -- the records that are left come first and do nothing
    have hleft : left.foldl svc.cnameStep (fun _ => none) = fun _ => none :=
      foldl_inert fun rr hrr =>
        hforeign rr (hsp.perm.mem_iff.mpr (List.mem_append_right _ hrr))
    have hmap : svc.aiCNAMEs (left ++ (named svc answer ++ unnamed svc answer) ++ taken) =
        taken.foldl svc.cnameStep (ownedMap svc answer) := by
      rw [Service.aiCNAMEs, List.foldl_append, List.foldl_append, hleft, List.foldl_append]
      rfl
    have hunmarked : ∀ n, Unmarked svc answer n →
        taken.foldl svc.cnameStep (ownedMap svc answer) n = some [] := by
      intro n hn
      induction hn with
      | root hai hrec => exact hsp.marked _ (ownedMap_marked hai hrec)
      | hop _ hai hrec ih =>
          refine hsp.closed _ _ ?_ ih
          obtain ⟨hdr, t, hmem, rfl, htarget⟩ := hrec
          refine ⟨hdr, t, List.mem_filter.mpr ⟨hmem, ?_⟩, rfl, htarget⟩
          rw [ownedByAI, hai]
          rfl
    intro name hrec
    rw [hmap] at hrec
    rcases hrec with hai | ⟨origin, hne, hm⟩
    · exact .inl hai
    · have hnot : taken.foldl svc.cnameStep (ownedMap svc answer) name ≠ some [] := by
        rw [hm]
        exact fun heq => hne (Option.some.inj heq)
      rw [hsp.keeps name hnot] at hm
      exact .inr ⟨ownedMap_named hne hm, fun hun => hnot (hunmarked name hun)⟩

/-! ## Order independence -/

/-- Every order of the records writes the same keys, among them that of every
address reachable from an AI domain. -/
def OrderIndependent (o : ByteOrder) (svc : Service) (answer : List RR) : Prop :=
  ∀ answer', answer.Perm answer' →
    svc.writtenKeys o answer' = svc.writtenKeys o answer ∧
    ∀ name ip4, HasAddress answer' name ip4 → Reachable svc answer' name →
      destKey o ip4 ∈ svc.writtenKeys o answer'

/-- Every address of a reachable name is also one of a certain name. -/
def Covered (svc : Service) (answer : List RR) : Prop :=
  ∀ name ip4, HasAddress answer name ip4 → Reachable svc answer name →
    ∃ name', HasAddress answer name' ip4 ∧ Certain svc answer name'

/-- With every reachable address covered, an order writes exactly these. -/
theorem Covered.writtenKeys (h : Covered svc answer) (o : ByteOrder)
    (hperm : answer.Perm answer') :
    svc.writtenKeys o answer' =
      {key | ∃ name ip4, key = destKey o ip4 ∧ HasAddress answer name ip4 ∧
        Reachable svc answer name} := by
  ext key
  rw [mem_writtenKeys]
  constructor
  · rintro ⟨name, ip4, rfl, haddr, hrec⟩
    exact ⟨name, ip4, rfl, hasAddress_perm hperm.symm haddr, hrec.reachable.perm hperm.symm⟩
  · rintro ⟨name, ip4, rfl, haddr, hreach⟩
    obtain ⟨name', haddr', hcert⟩ := h name ip4 haddr hreach
    exact ⟨name', ip4, rfl, hasAddress_perm hperm haddr', (hcert.perm hperm).recognised⟩

/-- **Order independence** holds exactly when every address of a name reachable
through CNAME records, in whatever order, also belongs to an AI domain or to the
direct target of one (which the empty name does not reach, when it is an AI
domain itself). -/
theorem order_independent_iff (o : ByteOrder) (svc : Service) (answer : List RR) :
    OrderIndependent o svc answer ↔ Covered svc answer := by
  constructor
  · intro h name ip4 haddr hreach
    -- look at the order that recognises certain names only
    obtain ⟨answer', hperm, hcertain⟩ := adversary_exists svc answer
    have hkey := (h answer' hperm).2 name ip4 (hasAddress_perm hperm haddr) (hreach.perm hperm)
    obtain ⟨name', ip4', heq, haddr', hrec⟩ := (mem_writtenKeys o svc answer' _).mp hkey
    obtain rfl := destKey_injective o heq
    exact ⟨name', hasAddress_perm hperm.symm haddr', hcertain name' hrec⟩
  · intro h answer' hperm
    rw [h.writtenKeys o hperm, h.writtenKeys o (List.Perm.refl answer)]
    refine ⟨rfl, ?_⟩
    intro name ip4 haddr hreach
    exact ⟨name, ip4, rfl, hasAddress_perm hperm.symm haddr, hreach.perm hperm.symm⟩

/-- A two-hop chain, last hop first. -/
def lastHopFirst : List RR :=
  [.cname ⟨ascii "cdn.net.", 60⟩ (ascii "edge.net."),
    .cname ⟨ascii "api.openai.com.", 60⟩ (ascii "cdn.net."),
    .a ⟨ascii "edge.net.", 60⟩ [104, 18, 33, 45]]

/-- Its address is reachable and not written. -/
theorem last_hop_first_missed :
    Reachable ⟨[ascii "openai.com"]⟩ lastHopFirst (ascii "edge.net") ∧
      HasAddress lastHopFirst (ascii "edge.net") ⟨104, 18, 33, 45⟩ ∧
      Service.processAnswer ⟨[ascii "openai.com"]⟩ lastHopFirst = [] ∧
      ¬ OrderIndependent .little ⟨[ascii "openai.com"]⟩ lastHopFirst := by
  have hfirst : HasCname lastHopFirst (ascii "api.openai.com") (ascii "cdn.net") :=
    ⟨⟨ascii "api.openai.com.", 60⟩, ascii "cdn.net.", by simp [lastHopFirst], by decide, by decide⟩
  have hlast : HasCname lastHopFirst (ascii "cdn.net") (ascii "edge.net") :=
    ⟨⟨ascii "cdn.net.", 60⟩, ascii "edge.net.", by simp [lastHopFirst], by decide, by decide⟩
  have hreach : Reachable ⟨[ascii "openai.com"]⟩ lastHopFirst (ascii "edge.net") :=
    .hop (.hop (.ai (by decide)) hfirst) hlast
  have haddr : HasAddress lastHopFirst (ascii "edge.net") ⟨104, 18, 33, 45⟩ :=
    ⟨⟨ascii "edge.net.", 60⟩, [104, 18, 33, 45], by simp [lastHopFirst], by decide, by decide⟩
  have hnone : Service.processAnswer ⟨[ascii "openai.com"]⟩ lastHopFirst = [] := by decide
  refine ⟨hreach, haddr, hnone, ?_⟩
  intro h
  have hkey := (h lastHopFirst (List.Perm.refl _)).2 _ _ haddr hreach
  rw [Service.writtenKeys, hnone] at hkey
  exact absurd hkey (by simp)

end AiInterceptor.Theorems.AnswerOrder
