import AiInterceptor.Bpf.Defs
import AiInterceptor.Go.Net

/-!
# The DNS service (`internal/bpf/dns/service.go`)

`processDNSEvent` walks the answer section twice: the first loop builds the map
`aiCNAMEs` from CNAME targets to the AI hostname they were reached from, the
second writes the address of every A record whose owner is an AI domain or a
known target. Wire decoding is `github.com/miekg/dns`; it enters as the
parameter `unpack`, from a raw message to its answer section.
-/

namespace AiInterceptor.Agent

open Lib Bpf Go

/-- The parts of `dns.RR_Header` the service reads. -/
structure RRHeader where
  name : GoString
  ttl : UInt32
  deriving DecidableEq, Repr

/-- An answer record. -/
inductive RR
  | cname (hdr : RRHeader) (target : GoString)
  | a (hdr : RRHeader) (addr : IP)
  | other (hdr : RRHeader)
  deriving DecidableEq, Repr

structure Service where
  aiDomains : List GoString
  deriving DecidableEq, Repr

/-- The arguments of one `writeDestination` call. -/
structure Destination where
  ip4 : Ip4
  hostname : GoString
  ttl : UInt32
  deriving DecidableEq, Repr

/-- `strings.TrimSuffix(name, ".")`. -/
def trimDot (name : GoString) : GoString := trimSuffix name (ascii ".")

theorem trimDot_dot (s : GoString) : trimDot (s ++ ascii ".") = s := by
  have hsuf : hasSuffix (s ++ ascii ".") (ascii ".") = true :=
    decide_eq_true (List.suffix_append s _)
  rw [trimDot, trimSuffix, if_pos hsuf, List.length_append, Nat.add_sub_cancel, List.take_left]

/-- `map[string]string`. -/
abbrev StringMap := GoString → Option GoString

namespace Service

variable (svc : Service)

def isAIDomain (hostname : GoString) : Bool :=
  svc.aiDomains.any fun suffix => hostname == suffix || hasSuffix hostname (ascii "." ++ suffix)

/-- Body of the first loop. -/
def cnameStep (aiCNAMEs : StringMap) : RR → StringMap
  | .cname hdr target =>
      let src := trimDot hdr.name
      let tgt := trimDot target
      if svc.isAIDomain src then Function.update aiCNAMEs tgt (some src)
      else match aiCNAMEs src with
        | some origin => Function.update aiCNAMEs tgt (some origin)
        | none => aiCNAMEs
  | _ => aiCNAMEs

/-- The first loop over a whole answer section. -/
def aiCNAMEs (answer : List RR) : StringMap := answer.foldl svc.cnameStep fun _ => none

/-- The `switch` of the second loop. A missing key reads as the empty string,
which is also the sentinel for "not an AI name". -/
def aiHostname (aiCNAMEs : StringMap) (name : GoString) : Option GoString :=
  if svc.isAIDomain name then some name
  else if (aiCNAMEs name).getD [] ≠ [] then some ((aiCNAMEs name).getD [])
  else none

/-- Body of the second loop: the `writeDestination` call made for a record. -/
def destinationOf (aiCNAMEs : StringMap) : RR → Option Destination
  | .a hdr addr =>
      match to4 addr with
      | none => none
      | some ip4 => (svc.aiHostname aiCNAMEs (trimDot hdr.name)).map fun h => ⟨ip4, h, hdr.ttl⟩
  | _ => none

/-- The `writeDestination` calls made for an unpacked answer section, in
order. -/
def processAnswer (answer : List RR) : List Destination :=
  answer.filterMap (svc.destinationOf (svc.aiCNAMEs answer))

/-- `ProcessDNSEvent`. -/
def processDNSEvent {ε : Type} (unpack : List UInt8 → Except ε (List RR))
    (rawMsg : List UInt8) : Except ε (List Destination) := do
  let answer ← unpack rawMsg
  return svc.processAnswer answer

end Service

/-! ## `writeDestination` -/

/-- The `[64]int8` hostname field: the first 64 bytes, zero-padded. -/
def hostnameField (hostname : GoString) : List UInt8 :=
  hostname.take maxHostnameLen ++ List.replicate (maxHostnameLen - hostname.length) 0

@[simp] theorem hostnameField_length (hostname : GoString) :
    (hostnameField hostname).length = maxHostnameLen := by
  simp only [hostnameField, List.length_append, List.length_take, List.length_replicate]
  omega

def destStores (o : ByteOrder) (d : Destination) (now : UInt64) :
    List (DestField × List UInt8) :=
  [(.hostname, hostnameField d.hostname), (.timestampNs, o.put64 now), (.ttlS, o.put32 d.ttl)]

theorem destStores_sized (o : ByteOrder) (d : Destination) (now : UInt64) :
    goAiDestInfoT.Sized (destStores o d now) := by
  intro s hs
  simp only [destStores, List.mem_cons, List.not_mem_nil, or_false] at hs
  rcases hs with rfl | rfl | rfl
  · exact hostnameField_length d.hostname
  · exact o.put64_length now
  · exact o.put32_length d.ttl

/-- The map value `writeDestination` marshals. -/
def destInfo (o : ByteOrder) (d : Destination) (now : UInt64) : Record goAiDestInfoT :=
  (Record.zero goAiDestInfoT).storeAll (destStores o d now) (destStores_sized o d now)

/-- The key `writeDestination` marshals: the address read as a native word and
laid out natively again. -/
def destKey (o : ByteOrder) (ip4 : Ip4) : List UInt8 := o.put32 (o.get32 ip4.bytes)

/-- The keys the calls for an answer section write. -/
def Service.writtenKeys (svc : Service) (o : ByteOrder) (answer : List RR) : Set (List UInt8) :=
  {key | key ∈ (svc.processAnswer answer).map fun d => destKey o d.ip4}

def writeDestination (o : ByteOrder) (maps : Maps) (d : Destination) (now : UInt64) : Maps :=
  maps.updateDestination (destKey o d.ip4) (destInfo o d now)

/-- On either byte order the key is the address in network byte order. -/
theorem destKey_eq (o : ByteOrder) (ip4 : Ip4) : destKey o ip4 = ip4.bytes :=
  o.put32_get32 ip4.bytes_length

theorem destKey_injective (o : ByteOrder) : Function.Injective (destKey o) := by
  intro ip4 ip4' h
  rw [destKey_eq, destKey_eq] at h
  exact Ip4.bytes_injective h

theorem writeDestination_self (o : ByteOrder) (maps : Maps) (d : Destination) (now : UInt64) :
    (writeDestination o maps d now).aiDestinations (destKey o d.ip4) =
      some (destInfo o d now : Record aiDestInfoT) :=
  maps.updateDestination_self _

/-- The other entries stay. -/
theorem writeDestination_of_ne (o : ByteOrder) (maps : Maps) (d : Destination) (now : UInt64)
    {key : List UInt8} (h : key ≠ destKey o d.ip4) :
    (writeDestination o maps d now).aiDestinations key = maps.aiDestinations key :=
  maps.updateDestination_of_ne _ h

theorem destInfo_hostname (o : ByteOrder) (d : Destination) (now : UInt64) :
    Record.load (L := aiDestInfoT) (destInfo o d now) .hostname = hostnameField d.hostname :=
  Record.load_storeAll (L := goAiDestInfoT) (by simp [destStores]) (by simp [destStores])

end AiInterceptor.Agent
