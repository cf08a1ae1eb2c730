import AiInterceptor.Agent.Dns

/-!
# Which destinations a DNS message writes

The first loop of `ProcessDNSEvent` mutates the map it reads: later records
overwrite earlier origins, chains branch, merge and cycle, and an empty string
doubles as "absent". The loop invariant (`cnameMap_spec`) relates the map after
`n` records to the CNAME chains that end before position `n` and run forward
through the answer section. The second loop then writes exactly the addresses
whose owner is an AI domain or the end of such a chain.
-/

namespace AiInterceptor.Theorems.Destinations

open Lib Bpf Go Agent

/-! ## Chains -/

/-- Owner and target of the CNAME record at a position, trailing dots
removed. -/
def cnameAt (answer : List RR) (i : Nat) : Option (GoString × GoString) :=
  match answer[i]? with
  | some (.cname hdr target) => some (trimDot hdr.name, trimDot target)
  | _ => none

/-- One hop of a chain: a position with the names its record carries. -/
structure Hop where
  pos : Nat
  owner : GoString
  target : GoString

/-- CNAME records at strictly increasing positions, each owned by the target of
the one before, from the AI domain `origin` to `last`. -/
structure CnameChain (svc : Service) (answer : List RR) (hops : List Hop)
    (origin last : GoString) : Prop where
  nonempty : hops ≠ []
  records : ∀ h ∈ hops, cnameAt answer h.pos = some (h.owner, h.target)
  increasing : (hops.map Hop.pos).Pairwise (· < ·)
  linked : hops.IsChain fun h h' => h.target = h'.owner
  starts : hops.head?.map Hop.owner = some origin
  ai : svc.isAIDomain origin = true
  ends : hops.getLast?.map Hop.target = some last

/-- The same chains by their last hop, the form the loop extends. -/
inductive ChainTo (svc : Service) (answer : List RR) : Nat → GoString → GoString → Prop
  | start {i owner target} : cnameAt answer i = some (owner, target) →
      svc.isAIDomain owner = true → ChainTo svc answer i owner target
  | extend {i j origin owner target} : ChainTo svc answer i origin owner → i < j →
      cnameAt answer j = some (owner, target) → ChainTo svc answer j origin target

variable {svc : Service} {answer : List RR}

/-- A chain ends with the target of its last record. -/
theorem ChainTo.last_record {i : Nat} {origin last : GoString}
    (h : ChainTo svc answer i origin last) :
    ∃ owner, cnameAt answer i = some (owner, last) := by
  cases h with
  | start hrec _ => exact ⟨_, hrec⟩
  | extend _ _ hrec => exact ⟨_, hrec⟩

theorem ChainTo.origin_ai {i : Nat} {origin last : GoString}
    (h : ChainTo svc answer i origin last) : svc.isAIDomain origin = true := by
  induction h with
  | start _ hai => exact hai
  | extend _ _ _ ih => exact ih

/-- A chain grows by a later record of its end. -/
theorem CnameChain.snoc {init : List Hop} {prev hop : Hop} {origin last : GoString}
    (h : CnameChain svc answer (init ++ [prev]) origin last)
    (hrec : cnameAt answer hop.pos = some (hop.owner, hop.target)) (hlt : prev.pos < hop.pos)
    (howner : last = hop.owner) :
    CnameChain svc answer (init ++ [prev] ++ [hop]) origin hop.target := by
  have hprev : prev.target = last := by simpa using h.ends
  refine ⟨by simp, ?_, ?_, ?_, ?_, h.ai, by simp⟩
  · intro x hmem
    rcases List.mem_append.mp hmem with hmem | hmem
    · exact h.records x hmem
    · rw [List.mem_singleton.mp hmem]
      exact hrec
  · -- positions increase up to `prev`, which is before `hop`
    have hinc := h.increasing
    rw [List.map_append, List.pairwise_append] at hinc
    rw [List.map_append, List.pairwise_append]
    refine ⟨h.increasing, by simp, ?_⟩
    intro a ha b hb
    have hb' : b = hop.pos := by simpa using hb
    rw [List.map_append, List.mem_append] at ha
    rcases ha with ha | ha
    · have := hinc.2.2 a ha prev.pos (by simp)
      omega
    · have ha' : a = prev.pos := by simpa using ha
      omega
  · rw [List.append_assoc, List.singleton_append, List.isChain_append]
    have hlink := List.isChain_append.mp h.linked
    refine ⟨hlink.1, List.isChain_cons_cons.mpr ⟨hprev.trans howner, by simp⟩, ?_⟩
    intro x hx y hy
    simp only [List.head?_cons, Option.mem_def, Option.some.injEq] at hy
    exact hlink.2.2 x hx y (by simp [hy])
  · have hst := h.starts
    rwa [List.head?_append_of_ne_nil _ (by simp)]

theorem ChainTo.toChain {i : Nat} {origin last : GoString}
    (h : ChainTo svc answer i origin last) :
    ∃ hops, CnameChain svc answer hops origin last ∧ hops.getLast?.map Hop.pos = some i := by
  induction h with
  | @start i owner target hrec hai =>
      refine ⟨[⟨i, owner, target⟩], ⟨by simp, ?_, by simp, by simp, rfl, hai, rfl⟩, rfl⟩
      intro h hmem
      rw [List.mem_singleton.mp hmem]
      exact hrec
  | @extend i j origin owner target _ hij hrec ih =>
      obtain ⟨hops, hchain, hpos⟩ := ih
      obtain ⟨prev, hprev, hprevPos⟩ := Option.map_eq_some_iff.mp hpos
      obtain ⟨init, rfl⟩ := List.getLast?_eq_some_iff.mp hprev
      have hlt : prev.pos < j := by omega
      exact ⟨init ++ [prev] ++ [⟨j, owner, target⟩], hchain.snoc hrec hlt rfl, by simp⟩

theorem ChainTo.ofChain {hops : List Hop} {origin last : GoString}
    (h : CnameChain svc answer hops origin last) :
    ∃ i, hops.getLast?.map Hop.pos = some i ∧ ChainTo svc answer i origin last := by
  -- from the last hop: `ChainTo` grows at that end
  induction hops using List.reverseRecOn generalizing last with
  | nil => exact absurd rfl h.nonempty
  | append_singleton init hop ih =>
      have hrec := h.records hop (by simp)
      have hlast : hop.target = last := by simpa using h.ends
      refine ⟨hop.pos, by simp, ?_⟩
      rw [hlast] at hrec
      rcases List.eq_nil_or_concat init with rfl | ⟨init', prev, rfl⟩
      · have horigin : hop.owner = origin := by simpa using h.starts
        rw [horigin] at hrec
        exact .start hrec h.ai
      · rw [List.concat_eq_append] at h ih
        have hinc := h.increasing
        rw [List.map_append, List.pairwise_append] at hinc
        have hlink := List.isChain_append.mp h.linked
        have hprev : CnameChain svc answer (init' ++ [prev]) origin prev.target :=
          { nonempty := by simp
            records := fun x hx => h.records x (List.mem_append_left _ hx)
            increasing := hinc.1
            linked := hlink.1
            starts := by
              have hst := h.starts
              rwa [List.head?_append_of_ne_nil _ (by simp)] at hst
            ai := h.ai
            ends := by simp }
        obtain ⟨i, hi, hto⟩ := ih hprev
        have hi' : prev.pos = i := by simpa using hi
        have howner : prev.target = hop.owner := hlink.2.2 prev (by simp) hop (by simp)
        refine .extend hto ?_ (howner ▸ hrec)
        have := hinc.2.2 prev.pos (by simp) hop.pos (by simp)
        omega

/-! ## The CNAME loop -/

/-- What the map knows after `n` records: every entry is the end of a chain
from its value, and every chain end has an entry. -/
structure CnameMapSpec (svc : Service) (answer : List RR) (n : Nat) (m : StringMap) : Prop where
  sound : ∀ t origin, m t = some origin → ∃ i, i < n ∧ ChainTo svc answer i origin t
  complete : ∀ t i origin, i < n → ChainTo svc answer i origin t → ∃ origin', m t = some origin'

section Step

variable {m : StringMap} {hdr : RRHeader} {target : GoString}

theorem cnameStep_ai (hai : svc.isAIDomain (trimDot hdr.name) = true) :
    svc.cnameStep m (.cname hdr target) =
      Function.update m (trimDot target) (some (trimDot hdr.name)) := if_pos hai

theorem cnameStep_chained {origin : GoString} (hai : ¬ svc.isAIDomain (trimDot hdr.name) = true)
    (hm : m (trimDot hdr.name) = some origin) :
    svc.cnameStep m (.cname hdr target) = Function.update m (trimDot target) (some origin) := by
  rw [Service.cnameStep, if_neg hai, hm]

theorem cnameStep_unknown (hai : ¬ svc.isAIDomain (trimDot hdr.name) = true)
    (hm : m (trimDot hdr.name) = none) : svc.cnameStep m (.cname hdr target) = m := by
  rw [Service.cnameStep, if_neg hai, hm]

end Step

/-- Recording a chain that ends at position `n` keeps the invariant. -/
theorem CnameMapSpec.update {n : Nat} {m : StringMap} (h : CnameMapSpec svc answer n m)
    {owner target origin : GoString} (hrec : cnameAt answer n = some (owner, target))
    (hto : ChainTo svc answer n origin target) :
    CnameMapSpec svc answer (n + 1) (Function.update m target (some origin)) := by
  constructor
  · intro t origin' ht
    by_cases htt : t = target
    · subst htt
      rw [Function.update_self, Option.some.injEq] at ht
      exact ⟨n, by omega, ht ▸ hto⟩
    · rw [Function.update_of_ne htt] at ht
      obtain ⟨i, hi, hchain⟩ := h.sound t origin' ht
      exact ⟨i, by omega, hchain⟩
  · intro t i origin' hi hchain
    by_cases htt : t = target
    · subst htt
      exact ⟨origin, Function.update_self ..⟩
    · rw [Function.update_of_ne htt]
      refine h.complete t i origin' ?_ hchain
      -- a chain that ends at `n` ends with `target`
      by_contra hge
      obtain rfl : i = n := by omega
      obtain ⟨owner', hrec'⟩ := hchain.last_record
      rw [hrec] at hrec'
      injection hrec' with hpair
      exact htt (congrArg Prod.snd hpair).symm

/-- A record that ends no chain leaves the map as it is. -/
theorem CnameMapSpec.skip {n : Nat} {m : StringMap} (h : CnameMapSpec svc answer n m)
    (hnone : ∀ origin t, ¬ ChainTo svc answer n origin t) :
    CnameMapSpec svc answer (n + 1) m := by
  constructor
  · intro t origin ht
    obtain ⟨i, hi, hchain⟩ := h.sound t origin ht
    exact ⟨i, by omega, hchain⟩
  · intro t i origin hi hchain
    refine h.complete t i origin ?_ hchain
    by_contra hge
    obtain rfl : i = n := by omega
    exact hnone origin t hchain

theorem CnameMapSpec.step {n : Nat} {m : StringMap} {rr : RR}
    (h : CnameMapSpec svc answer n m) (hrr : answer[n]? = some rr) :
    CnameMapSpec svc answer (n + 1) (svc.cnameStep m rr) := by
  cases rr with
  | cname hdr target =>
      have hrec : cnameAt answer n = some (trimDot hdr.name, trimDot target) := by
        rw [cnameAt, hrr]
      by_cases hai : svc.isAIDomain (trimDot hdr.name) = true
      · rw [cnameStep_ai hai]
        exact h.update hrec (.start hrec hai)
      · cases hm : m (trimDot hdr.name) with
        | some origin =>
            obtain ⟨i, hi, hchain⟩ := h.sound _ _ hm
            rw [cnameStep_chained hai hm]
            exact h.update hrec (.extend hchain hi hrec)
        | none =>
            rw [cnameStep_unknown hai hm]
            -- the owner is unknown so far, so no chain ends in this record
            refine h.skip ?_
            intro origin t hchain
            cases hchain with
            | start hrec' hai' =>
                rw [hrec] at hrec'
                injection hrec' with hpair
                injection hpair with howner _
                exact hai (howner ▸ hai')
            | extend hprev hlt hrec' =>
                rw [hrec] at hrec'
                injection hrec' with hpair
                injection hpair with howner _
                obtain ⟨origin', hsome⟩ := h.complete _ _ _ hlt hprev
                rw [← howner, hm] at hsome
                exact absurd hsome (by simp)
  | a hdr addr | other hdr =>
      refine h.skip ?_
      intro origin t hchain
      obtain ⟨owner, hrec⟩ := hchain.last_record
      rw [cnameAt, hrr] at hrec
      exact absurd hrec (by simp)

theorem cnameMap_take_spec (svc : Service) (answer : List RR) :
    ∀ n, n ≤ answer.length →
      CnameMapSpec svc answer n ((answer.take n).foldl svc.cnameStep fun _ => none) := by
  intro n
  induction n with
  | zero =>
      intro _
      exact ⟨fun t origin h => absurd h (by simp), fun t i origin h => absurd h (by omega)⟩
  | succ n ih =>
      intro hn
      have hget : answer[n]? = some answer[n] := List.getElem?_eq_getElem (by omega)
      rw [List.take_add_one, hget, Option.toList_some, List.foldl_append, List.foldl_cons,
        List.foldl_nil]
      exact (ih (by omega)).step hget

/-- The map of the whole answer section. -/
theorem cnameMap_spec (svc : Service) (answer : List RR) :
    CnameMapSpec svc answer answer.length (svc.aiCNAMEs answer) := by
  have h := cnameMap_take_spec svc answer answer.length (Nat.le_refl _)
  rwa [List.take_length] at h

/-- Entries of the map are the ends of increasing chains. -/
theorem aiCNAMEs_isSome_iff (svc : Service) (answer : List RR) (t : GoString) :
    (∃ origin, svc.aiCNAMEs answer t = some origin) ↔
      ∃ hops origin, CnameChain svc answer hops origin t := by
  constructor
  · rintro ⟨origin, h⟩
    obtain ⟨i, _, hto⟩ := (cnameMap_spec svc answer).sound t origin h
    obtain ⟨hops, hchain, _⟩ := hto.toChain
    exact ⟨hops, origin, hchain⟩
  · rintro ⟨hops, origin, hchain⟩
    obtain ⟨i, _, hto⟩ := ChainTo.ofChain hchain
    refine (cnameMap_spec svc answer).complete t i origin ?_ hto
    obtain ⟨owner, hrec⟩ := hto.last_record
    by_contra hge
    rw [cnameAt, List.getElem?_eq_none (by omega)] at hrec
    exact absurd hrec (by simp)

/-! ## The address loop -/

/-- Without an empty entry in the list no AI domain is the empty string, so the
sentinel of the second loop is unambiguous. -/
theorem isAIDomain_ne_nil (hne : [] ∉ svc.aiDomains) {name : GoString}
    (h : svc.isAIDomain name = true) : name ≠ [] := by
  rintro rfl
  obtain ⟨suffix, hmem, hmatch⟩ := List.any_eq_true.mp h
  rcases (Bool.or_eq_true _ _).mp hmatch with heq | hsuf
  · exact hne ((beq_iff_eq.mp heq) ▸ hmem)
  · have := List.suffix_nil.mp (of_decide_eq_true hsuf)
    exact absurd this (by simp [ascii])

theorem aiHostname_chained (hne : [] ∉ svc.aiDomains) {name : GoString}
    (hai : svc.isAIDomain name = false) :
    svc.aiHostname (svc.aiCNAMEs answer) name = svc.aiCNAMEs answer name := by
  rw [Service.aiHostname, hai]
  cases hm : svc.aiCNAMEs answer name with
  | none => simp
  | some origin =>
      obtain ⟨i, _, hto⟩ := (cnameMap_spec svc answer).sound name origin hm
      have : origin ≠ [] := isAIDomain_ne_nil hne hto.origin_ai
      simp [this]

theorem aiHostname_self {m : StringMap} {name : GoString} (hai : svc.isAIDomain name = true) :
    svc.aiHostname m name = some name := by
  rw [Service.aiHostname, if_pos hai]

/-- A name has an AI hostname when it is an AI domain or a chain from one ends in
it. -/
theorem aiHostname_exists_iff (hne : [] ∉ svc.aiDomains) (answer : List RR) (name : GoString) :
    (∃ host, svc.aiHostname (svc.aiCNAMEs answer) name = some host) ↔
      svc.isAIDomain name = true ∨ ∃ hops origin, CnameChain svc answer hops origin name := by
  cases hai : svc.isAIDomain name with
  | true =>
      rw [aiHostname_self hai]
      simp
  | false =>
      rw [aiHostname_chained hne hai, aiCNAMEs_isSome_iff]
      simp

/-- The hostname is the AI domain itself, or the origin of a chain. -/
theorem aiHostname_origin (hne : [] ∉ svc.aiDomains) {name host : GoString}
    (h : svc.aiHostname (svc.aiCNAMEs answer) name = some host) :
    svc.isAIDomain host = true ∧ (svc.isAIDomain name = true → host = name) ∧
      (svc.isAIDomain name = false → ∃ hops, CnameChain svc answer hops host name) := by
  cases hai : svc.isAIDomain name with
  | true =>
      rw [aiHostname_self hai] at h
      obtain rfl := Option.some.inj h
      exact ⟨hai, fun _ => rfl, fun h => absurd h (by simp)⟩
  | false =>
      rw [aiHostname_chained hne hai] at h
      obtain ⟨i, _, hto⟩ := (cnameMap_spec svc answer).sound name host h
      obtain ⟨hops, hchain, _⟩ := hto.toChain
      exact ⟨hto.origin_ai, fun h => absurd h (by simp), fun _ => ⟨hops, hchain⟩⟩

theorem destinationOf_eq_some {m : StringMap} {rr : RR} {d : Destination} :
    svc.destinationOf m rr = some d ↔
      ∃ hdr addr, rr = .a hdr addr ∧ to4 addr = some d.ip4 ∧ d.ttl = hdr.ttl ∧
        svc.aiHostname m (trimDot hdr.name) = some d.hostname := by
  cases rr with
  | cname hdr t => simp [Service.destinationOf]
  | other hdr => simp [Service.destinationOf]
  | a hdr addr =>
      cases hip : to4 addr with
      | none => simp [Service.destinationOf, hip]
      | some ip4 =>
          obtain ⟨ip, host, ttl⟩ := d
          simp only [Service.destinationOf, hip, Option.map_eq_some_iff, RR.a.injEq,
            Destination.mk.injEq]
          constructor
          · rintro ⟨h, hh, rfl, rfl, rfl⟩
            exact ⟨hdr, addr, ⟨rfl, rfl⟩, hip, rfl, hh⟩
          · rintro ⟨hdr', addr', ⟨rfl, rfl⟩, hip', rfl, hh⟩
            exact ⟨host, hh, Option.some.inj (hip.symm.trans hip'), rfl, rfl⟩

/-- Only CNAME records matter to the first loop. -/
theorem aiCNAMEs_filter (svc : Service) (answer : List RR) :
    svc.aiCNAMEs (answer.filter fun rr => rr matches .cname ..) = svc.aiCNAMEs answer := by
  unfold Service.aiCNAMEs
  rw [List.foldl_filter]
  congr 1
  funext m rr
  cases rr <;> simp [Service.cnameStep]

/-- Only A records matter to the second loop. -/
theorem filterMap_destinationOf_filter (svc : Service) (m : StringMap) (answer : List RR) :
    (answer.filter fun rr => rr matches .a ..).filterMap (svc.destinationOf m) =
      answer.filterMap (svc.destinationOf m) := by
  rw [List.filterMap_filter]
  congr 1
  funext rr
  cases rr <;> simp [Service.destinationOf]

/-- **Exact set of destinations.** For every answer section, the calls are those
of the A records in order; an A record with a 4-byte address is written exactly
when its owner is an AI domain or the end of an increasing CNAME chain, under
its own name in the first case and under the origin of such a chain otherwise;
and the interleaving of A records with CNAME records does not matter. -/
theorem processAnswer_exact (svc : Service) (hne : [] ∉ svc.aiDomains) (answer : List RR) :
    svc.processAnswer answer = answer.filterMap (svc.destinationOf (svc.aiCNAMEs answer)) ∧
    (∀ hdr addr ip4, to4 addr = some ip4 →
      ((∃ d, svc.destinationOf (svc.aiCNAMEs answer) (.a hdr addr) = some d) ↔
        svc.isAIDomain (trimDot hdr.name) = true ∨
          ∃ hops origin, CnameChain svc answer hops origin (trimDot hdr.name)) ∧
      ∀ d, svc.destinationOf (svc.aiCNAMEs answer) (.a hdr addr) = some d →
        d.ip4 = ip4 ∧ d.ttl = hdr.ttl ∧ svc.isAIDomain d.hostname = true ∧
        (svc.isAIDomain (trimDot hdr.name) = true → d.hostname = trimDot hdr.name) ∧
        (svc.isAIDomain (trimDot hdr.name) = false →
          ∃ hops, CnameChain svc answer hops d.hostname (trimDot hdr.name))) ∧
    (∀ rr d, svc.destinationOf (svc.aiCNAMEs answer) rr = some d →
      ∃ hdr addr, rr = .a hdr addr ∧ to4 addr = some d.ip4) ∧
    ∀ answer' : List RR,
      answer'.filter (fun rr => rr matches .cname ..) =
        answer.filter (fun rr => rr matches .cname ..) →
      answer'.filter (fun rr => rr matches .a ..) = answer.filter (fun rr => rr matches .a ..) →
      svc.processAnswer answer' = svc.processAnswer answer := by
  refine ⟨rfl, ?_, ?_, ?_⟩
  · intro hdr addr ip4 hip
    have hdest : svc.destinationOf (svc.aiCNAMEs answer) (.a hdr addr) =
        (svc.aiHostname (svc.aiCNAMEs answer) (trimDot hdr.name)).map
          fun h => ⟨ip4, h, hdr.ttl⟩ := by
      rw [Service.destinationOf, hip]
    rw [← aiHostname_exists_iff hne]
    refine ⟨?_, ?_⟩
    · rw [hdest, ← Option.isSome_iff_exists, Option.isSome_map, Option.isSome_iff_exists]
    · intro d hd
      rw [hdest] at hd
      obtain ⟨host, hhost, rfl⟩ := Option.map_eq_some_iff.mp hd
      exact ⟨rfl, rfl, aiHostname_origin hne hhost⟩
  · intro rr d hd
    obtain ⟨hdr, addr, rfl, hip, _⟩ := destinationOf_eq_some.mp hd
    exact ⟨hdr, addr, rfl, hip⟩
  -- each of the two loops sees only one kind of record
  · intro answer' hcnames has
    rw [Service.processAnswer, Service.processAnswer, ← aiCNAMEs_filter svc answer',
      ← aiCNAMEs_filter svc answer, hcnames, ← filterMap_destinationOf_filter svc _ answer', has,
      filterMap_destinationOf_filter]

/-- A two-hop chain whose A record stands before its CNAME records. -/
theorem processAnswer_exact_openai :
    let svc : Service := ⟨[ascii "openai.com"]⟩
    let answer : List RR :=
      [.a ⟨ascii "edge.net.", 60⟩ [104, 18, 33, 45],
        .cname ⟨ascii "api.openai.com.", 60⟩ (ascii "cdn.net."),
        .cname ⟨ascii "cdn.net.", 60⟩ (ascii "edge.net.")]
    [] ∉ svc.aiDomains ∧
      svc.processAnswer answer = [⟨⟨104, 18, 33, 45⟩, ascii "api.openai.com", 60⟩] ∧
      ∃ hops origin, CnameChain svc answer hops origin (ascii "edge.net") := by
  intro svc answer
  have hne : [] ∉ svc.aiDomains := by decide
  refine ⟨hne, by decide, ?_⟩
  have h := (((processAnswer_exact svc hne answer).2.1 ⟨ascii "edge.net.", 60⟩
    [104, 18, 33, 45] ⟨104, 18, 33, 45⟩ (by decide)).1).mp
      ⟨⟨⟨104, 18, 33, 45⟩, ascii "api.openai.com", 60⟩, by decide⟩
  rcases h with h | h
  · exact absurd h (by decide)
  · have htrim : trimDot (ascii "edge.net.") = ascii "edge.net" := by decide
    simpa only [htrim] using h

end AiInterceptor.Theorems.Destinations
