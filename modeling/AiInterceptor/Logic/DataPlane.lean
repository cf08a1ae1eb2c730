import AiInterceptor.Agent.DataPlane
import AiInterceptor.Lib.TSys
import AiInterceptor.Logic.Manager
import AiInterceptor.Logic.Redirect

/-!
# Histories of the data plane

What the maps hold at the end of a run is a function of its events: an address is
a known destination exactly when the last write or eviction of it was a write
(`known_iff_intercepted`), every write stems from a message (`messages_accounted`),
and the proxy entry is the one the run started with.
-/

namespace AiInterceptor.Agent.DataPlane

open Lib Bpf Go

variable {o : ByteOrder} {svc : Service}

/-- A destination was written for exactly these address bytes, and the entry has
not been evicted since. -/
def Intercepted (hist : List Event) (key : List UInt8) : Prop :=
  ∃ pre msg d now post, hist = pre ++ .write msg d now :: post ∧ d.ip4.bytes = key ∧
    .evict key ∉ post

theorem not_intercepted_nil (key : List UInt8) : ¬ Intercepted [] key := by
  rintro ⟨pre, msg, d, now, post, h, _⟩
  exact absurd h (by simp)

theorem intercepted_snoc {hist : List Event} {e : Event} {key : List UInt8} :
    Intercepted (hist ++ [e]) key ↔
      (∃ msg d now, e = .write msg d now ∧ d.ip4.bytes = key) ∨
        (Intercepted hist key ∧ e ≠ .evict key) := by
  constructor
  · rintro ⟨pre, msg, d, now, post, h, hd, hpost⟩
    -- the new event is the write itself, or comes after it
    rcases List.eq_nil_or_concat post with rfl | ⟨post', e', rfl⟩
    · obtain ⟨_, he⟩ := List.append_inj' h rfl
      exact Or.inl ⟨msg, d, now, List.singleton_injective he, hd⟩
    · rw [List.concat_eq_append] at h hpost
      have h' : hist ++ [e] = (pre ++ .write msg d now :: post') ++ [e'] := by
        rw [h, List.append_assoc, List.cons_append]
      obtain ⟨rfl, he⟩ := List.append_inj' h' rfl
      obtain rfl := List.singleton_injective he
      refine Or.inr ⟨⟨pre, msg, d, now, post', rfl, hd, ?_⟩, ?_⟩
      · intro hmem
        exact hpost (List.mem_append_left _ hmem)
      · rintro rfl
        exact hpost (by simp)
  · rintro (⟨msg, d, now, rfl, hd⟩ | ⟨⟨pre, msg, d, now, post, rfl, hd, hpost⟩, he⟩)
    · exact ⟨hist, msg, d, now, [], rfl, hd, List.not_mem_nil⟩
    · refine ⟨pre, msg, d, now, post ++ [e], by simp, hd, ?_⟩
      intro hmem
      rcases List.mem_append.mp hmem with hmem | hmem
      · exact hpost hmem
      · exact he (List.mem_singleton.mp hmem).symm

theorem intercepted_iff_written {hist : List Event} (hno : ∀ key, .evict key ∉ hist)
    (key : List UInt8) :
    Intercepted hist key ↔ ∃ msg d now, .write msg d now ∈ hist ∧ d.ip4.bytes = key := by
  constructor
  · rintro ⟨pre, msg, d, now, post, rfl, hd, _⟩
    exact ⟨msg, d, now, by simp, hd⟩
  · rintro ⟨msg, d, now, hmem, hd⟩
    obtain ⟨pre, post, rfl⟩ := List.append_of_mem hmem
    refine ⟨pre, msg, d, now, post, rfl, hd, fun hev => hno key ?_⟩
    exact List.mem_append_right _ (List.mem_cons_of_mem _ hev)

/-! ## The proxy entry -/

/-- Only `writeProxyConfig` writes the proxy entry. -/
theorem step_proxyConfig {σ σ' : State} {e : Event} (h : step o svc σ e = some σ') :
    σ'.maps.proxyConfig = σ.maps.proxyConfig := by
  cases e with
  | dnsMessage answer => rw [step_dnsMessage h]
  | write msg d now =>
      obtain ⟨rest, _, rfl⟩ := step_write h
      rfl
  | evict key =>
      rw [step_evict h]
      rfl
  | connect call => rw [step_connect h]
  | readRedirect =>
      obtain ⟨sample, rest, _, rfl⟩ := step_readRedirect h
      rfl

theorem run_proxyConfig {σ σ' : State} {es : List Event}
    (h : run (step o svc) σ es = some σ') : σ'.maps.proxyConfig = σ.maps.proxyConfig :=
  @run_invariant State Event (step o svc)
    (fun τ => τ.maps.proxyConfig = σ.maps.proxyConfig)
    (fun _ _ _ hτ hstep => (step_proxyConfig hstep).trans hτ) σ σ' es rfl h

/-! ## Known destinations -/

/-- The destinations of `σ` are the live writes of `hist`. -/
def KnownIffIntercepted (hist : List Event) (σ : State) : Prop :=
  ∀ key, (σ.maps.aiDestinations key).isSome ↔ Intercepted hist key

theorem KnownIffIntercepted.step {hist : List Event} {σ σ' : State} {e : Event}
    (h : KnownIffIntercepted hist σ) (hstep : step o svc σ e = some σ') :
    KnownIffIntercepted (hist ++ [e]) σ' := by
  intro key
  rw [intercepted_snoc]
  cases e with
  | dnsMessage answer =>
      rw [step_dnsMessage hstep]
      simp [h key]
  | write msg d now =>
      obtain ⟨rest, _, rfl⟩ := step_write hstep
      -- the map's key is the address as it stands on the wire, whatever the byte order
      have hbytes := destKey_eq o d.ip4
      by_cases hkey : key = destKey o d.ip4
      · rw [hkey, writeDestination_self]
        exact ⟨fun _ => .inl ⟨msg, d, now, rfl, hbytes.symm⟩, fun _ => rfl⟩
      · rw [writeDestination_of_ne o σ.maps d now hkey, h key]
        rw [hbytes] at hkey
        simp [Ne.symm hkey]
  | evict key' =>
      rw [step_evict hstep]
      by_cases hkey : key = key'
      · rw [hkey, Maps.evict_self]
        simp
      · rw [Maps.evict_of_ne σ.maps hkey, h key]
        simp [Ne.symm hkey]
  | connect call =>
      rw [step_connect hstep]
      simp [h key]
  | readRedirect =>
      obtain ⟨sample, rest, _, rfl⟩ := step_readRedirect hstep
      simp [h key]

/-- From an empty map, an address is known exactly when it is intercepted. -/
theorem known_iff_intercepted {maps : Maps} (hempty : ∀ key, maps.aiDestinations key = none)
    {es : List Event} {σ : State} (hrun : run (step o svc) (start maps) es = some σ) :
    KnownIffIntercepted es σ := by
  have hstart : KnownIffIntercepted [] (start maps) := by
    intro key
    have hnone : (start maps).maps.aiDestinations key = none := hempty key
    rw [hnone]
    simp [not_intercepted_nil key]
  exact run_history (fun _ _ _ _ h hstep => KnownIffIntercepted.step h hstep) hstart hrun

/-! ## Messages and their writes -/

/-- The calls of the messages in `hist` are those made and those still pending. -/
def Accounted (svc : Service) (hist : List Event) (σ : State) : Prop :=
  ∀ d, (∃ answer, .dnsMessage answer ∈ hist ∧ d ∈ svc.processAnswer answer) ↔
    (∃ msg now, .write msg d now ∈ hist) ∨ ∃ calls ∈ σ.pending, d ∈ calls

/-- Making the first pending call of a message takes that call out and leaves
the others. -/
theorem mem_pending_set {pending : List (List Destination)} {msg : Nat} {d : Destination}
    {rest : List Destination} (h : pending[msg]? = some (d :: rest)) (d' : Destination) :
    (∃ calls ∈ pending, d' ∈ calls) ↔ d' = d ∨ ∃ calls ∈ pending.set msg rest, d' ∈ calls := by
  have hlt := (List.getElem?_eq_some_iff.mp h).1
  constructor
  · rintro ⟨calls, hcalls, hd'⟩
    obtain ⟨i, hi⟩ := List.mem_iff_getElem?.mp hcalls
    by_cases hmsg : i = msg
    · subst hmsg
      obtain rfl := Option.some.inj (hi.symm.trans h)
      rcases List.mem_cons.mp hd' with rfl | hd'
      · exact Or.inl rfl
      · exact Or.inr ⟨rest, List.mem_set hlt rest, hd'⟩
    · refine Or.inr ⟨calls, ?_, hd'⟩
      refine List.mem_iff_getElem?.mpr ⟨i, ?_⟩
      rw [List.getElem?_set_ne (Ne.symm hmsg), hi]
  · rintro (rfl | ⟨calls, hcalls, hd'⟩)
    · exact ⟨d' :: rest, List.mem_of_getElem? h, List.mem_cons_self⟩
    · rcases List.mem_or_eq_of_mem_set hcalls with hcalls | rfl
      · exact ⟨calls, hcalls, hd'⟩
      · exact ⟨d :: calls, List.mem_of_getElem? h, List.mem_cons_of_mem d hd'⟩

theorem Accounted.step {hist : List Event} {σ σ' : State} {e : Event}
    (h : Accounted svc hist σ) (hstep : step o svc σ e = some σ') :
    Accounted svc (hist ++ [e]) σ' := by
  intro d
  have hd := h d
  cases e with
  | dnsMessage answer =>
      rw [step_dnsMessage hstep]
      simp only [List.mem_append, List.mem_singleton, Event.dnsMessage.injEq, or_and_right,
        exists_or, exists_eq_left, reduceCtorEq, or_false] at hd ⊢
      rw [hd, or_assoc]
  | write msg d' now =>
      obtain ⟨rest, hmsg, rfl⟩ := step_write hstep
      -- the write moves from what is pending to the history
      rw [mem_pending_set hmsg d] at hd
      simp only [List.mem_append, List.mem_singleton, Event.write.injEq, exists_or,
        reduceCtorEq, or_false] at hd ⊢
      rw [hd, or_assoc]
      refine or_congr_right (or_congr_left ?_)
      constructor
      · rintro rfl
        exact ⟨msg, now, rfl, rfl, rfl⟩
      · rintro ⟨_, _, _, rfl, _⟩
        rfl
  | evict key =>
      rw [step_evict hstep]
      simpa using hd
  | connect call =>
      rw [step_connect hstep]
      simpa using hd
  | readRedirect =>
      obtain ⟨sample, rest, _, rfl⟩ := step_readRedirect hstep
      simpa using hd

theorem messages_accounted {maps : Maps} {es : List Event} {σ : State}
    (hrun : run (step o svc) (start maps) es = some σ) : Accounted svc es σ := by
  have hstart : Accounted svc [] (start maps) := by
    intro d
    simp [start]
  exact run_history (fun _ _ _ _ h hstep => Accounted.step h hstep) hstart hrun

/-- No message has a call left to make. -/
def Drained (σ : State) : Prop := ∀ calls ∈ σ.pending, calls = []

/-- The addresses a message writes. -/
def Writes (svc : Service) (answer : List RR) (key : List UInt8) : Prop :=
  ∃ d ∈ svc.processAnswer answer, d.ip4.bytes = key

/-- Without evictions, a drained run knows the addresses its messages write. -/
theorem known_iff_messages {maps : Maps} (hempty : ∀ key, maps.aiDestinations key = none)
    {es : List Event} {σ : State} (hrun : run (step o svc) (start maps) es = some σ)
    (hno : ∀ key, .evict key ∉ es) (hdrained : Drained σ) (key : List UInt8) :
    (σ.maps.aiDestinations key).isSome ↔
      ∃ answer, .dnsMessage answer ∈ es ∧ Writes svc answer key := by
  rw [known_iff_intercepted hempty hrun key, intercepted_iff_written hno]
  have hacc := messages_accounted hrun
  constructor
  · rintro ⟨msg, d, now, hmem, hd⟩
    obtain ⟨answer, hmsg, hcall⟩ := (hacc d).mpr (.inl ⟨msg, now, hmem⟩)
    exact ⟨answer, hmsg, d, hcall, hd⟩
  · rintro ⟨answer, hmsg, d, hcall, hd⟩
    rcases (hacc d).mp ⟨answer, hmsg, hcall⟩ with ⟨msg, now, hmem⟩ | ⟨calls, hcalls, hmem⟩
    · exact ⟨msg, d, now, hmem, hd⟩
    · rw [hdrained calls hcalls] at hmem
      exact absurd hmem List.not_mem_nil

end AiInterceptor.Agent.DataPlane
