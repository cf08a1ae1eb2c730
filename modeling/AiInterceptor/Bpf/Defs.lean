import AiInterceptor.Lib.ByteOrder
import AiInterceptor.Lib.Layout

/-!
# Shared records and maps (`bpf/defs.h`, `bpf/maps.h`)

Everything the kernel programs and the agent exchange is raw memory: map keys,
map values and ring-buffer records. Each record type is declared twice, once as
the C struct of `defs.h` and once as the Go struct `bpf2go` generated from it
(where implicit padding has become blank fields), and each side computes its
member offsets from its own declaration. The two tables agree on every member.
-/

namespace AiInterceptor.Bpf

open Lib

/-! ## Constants of `defs.h` -/

def ethHdrLen : Nat := 14
def ipHdrMinlen : Nat := 20
def udpHdrLen : Nat := 8
def tcpHdrMinlen : Nat := 20
def dnsTcpLenPrefix : Nat := 2
def dnsHdrMinLen : Nat := 12
def maxHostnameLen : Nat := 64
def maxCommandSize : Nat := 16
def maxCommandlineSize : Nat := 127
def maxDnsMsgSize : Nat := 512
def tcActOk : Nat := 0

/-! ## Record declarations -/

/-- Members of `ai_dest_info_t`. -/
inductive DestField
  | hostname | timestampNs | ttlS | pad
  deriving DecidableEq, Repr

/-- Members of `proxy_config_t`. -/
inductive ProxyField
  | ip | port | pad
  deriving DecidableEq, Repr

/-- Members of `redirect_event_t`. -/
inductive RedirectField
  | pid | tgid | originalIp | originalPort | proxyIp | proxyPort | pad | hostname | command
  | commandlineLen | commandline | timestampNs
  deriving DecidableEq, Repr

/-- Members of `dns_event_t`. -/
inductive DnsField
  | msgSize | msg
  deriving DecidableEq, Repr

section Members

variable {F : Type}

/-- A scalar member of `bytes` bytes, naturally aligned. -/
def scalar (name : F) (bytes : Nat) : Member F := ⟨some name, bytes, bytes⟩

/-- A byte-array member. -/
def chars (name : F) (len : Nat) : Member F := ⟨some name, len, 1⟩

/-- A blank Go field `_ [len]byte`. -/
def blank (len : Nat) : Member F := ⟨none, len, 1⟩

end Members

/-- `struct ai_dest_info_t`. -/
def aiDestInfoT : Layout DestField :=
  Layout.ofMembers
    [chars .hostname maxHostnameLen, scalar .timestampNs 8, scalar .ttlS 4, chars .pad 4]
    (by decide)

/-- `struct proxy_config_t`. -/
def proxyConfigT : Layout ProxyField :=
  Layout.ofMembers [scalar .ip 4, scalar .port 2, chars .pad 2] (by decide)

/-- `struct redirect_event_t`; the compiler pads after `original_port` and
after `commandline`. -/
def redirectEventT : Layout RedirectField :=
  Layout.ofMembers
    [scalar .pid 4, scalar .tgid 4, scalar .originalIp 4, scalar .originalPort 2,
      scalar .proxyIp 4, scalar .proxyPort 2, chars .pad 2, chars .hostname maxHostnameLen,
      chars .command maxCommandSize, scalar .commandlineLen 4,
      chars .commandline maxCommandlineSize, scalar .timestampNs 8]
    (by decide)

/-- `struct dns_event_t`. -/
def dnsEventT : Layout DnsField :=
  Layout.ofMembers [scalar .msgSize 8, chars .msg maxDnsMsgSize] (by decide)

/-- `AIInterceptorAiDestInfoT` of the generated bindings. -/
def goAiDestInfoT : Layout DestField :=
  Layout.ofMembers
    [chars .hostname 64, scalar .timestampNs 8, scalar .ttlS 4, chars .pad 4]
    (by decide)

/-- `AIInterceptorProxyConfigT` of the generated bindings. -/
def goProxyConfigT : Layout ProxyField :=
  Layout.ofMembers [scalar .ip 4, scalar .port 2, chars .pad 2] (by decide)

/-- `AIInterceptorRedirectEventT` of the generated bindings, with its two blank
fields. -/
def goRedirectEventT : Layout RedirectField :=
  Layout.ofMembers
    [scalar .pid 4, scalar .tgid 4, scalar .originalIp 4, scalar .originalPort 2, blank 2,
      scalar .proxyIp 4, scalar .proxyPort 2, chars .pad 2, chars .hostname 64,
      chars .command 16, scalar .commandlineLen 4, chars .commandline 127, blank 5,
      scalar .timestampNs 8]
    (by decide)

/-- The C and the Go declaration of every shared record describe the same
memory. -/
theorem go_layouts_agree :
    goAiDestInfoT = aiDestInfoT ∧ goProxyConfigT = proxyConfigT ∧
      goRedirectEventT = redirectEventT := by
  have hoff : goRedirectEventT.off = redirectEventT.off := by
    funext f
    cases f <;> decide
  have hsize : goRedirectEventT.size = redirectEventT.size := by
    funext f
    cases f <;> decide
  have htotal : goRedirectEventT.total = redirectEventT.total := by decide
  refine ⟨rfl, rfl, ?_⟩
  cases hgo : goRedirectEventT with
  | mk off size total fits disjoint =>
      cases hc : redirectEventT with
      | mk off' size' total' fits' disjoint' =>
          simp only [hgo, hc] at hoff hsize htotal
          subst hoff hsize htotal
          rfl

/-! ## Maps -/

/-- The two maps both sides access, with raw keys and values. `ai_destinations`
is an LRU hash, so an entry may be absent; `proxy_config` is an ARRAY map of
one entry, which is always present. -/
structure Maps where
  aiDestinations : List UInt8 → Option (Record aiDestInfoT)
  proxyConfig : Record proxyConfigT

/-- Maps as the kernel creates them: no destination, an all-zero proxy entry. -/
def Maps.empty : Maps := ⟨fun _ => none, Record.zero proxyConfigT⟩

/-- `bpf_map_lookup_elem` on the ARRAY map: NULL only past the last index. -/
def Maps.lookupProxyConfig (o : ByteOrder) (m : Maps) (key : List UInt8) :
    Option (Record proxyConfigT) :=
  if o.get32 key < 1 then some m.proxyConfig else none

/-- `bpf_map_update_elem` with `BPF_ANY` on the hash map. -/
def Maps.updateDestination (m : Maps) (key : List UInt8) (info : Record aiDestInfoT) : Maps :=
  { m with aiDestinations := Function.update m.aiDestinations key (some info) }

/-- Removal of one entry by the LRU map. -/
def Maps.evict (m : Maps) (key : List UInt8) : Maps :=
  { m with aiDestinations := Function.update m.aiDestinations key none }

section Entries

variable (m : Maps) {key key' : List UInt8} (info : Record aiDestInfoT)

@[simp] theorem Maps.updateDestination_self :
    (m.updateDestination key info).aiDestinations key = some info := Function.update_self ..

theorem Maps.updateDestination_of_ne (h : key ≠ key') :
    (m.updateDestination key' info).aiDestinations key = m.aiDestinations key :=
  Function.update_of_ne h ..

@[simp] theorem Maps.evict_self : (m.evict key).aiDestinations key = none :=
  Function.update_self ..

theorem Maps.evict_of_ne (h : key ≠ key') :
    (m.evict key').aiDestinations key = m.aiDestinations key := Function.update_of_ne h ..

end Entries

end AiInterceptor.Bpf
