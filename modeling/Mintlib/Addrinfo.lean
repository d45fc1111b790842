import Mintlib.Lib.Text
import Mintlib.Lib.Checked
import Mintlib.Posix

/-!
# Addresses of hosts: `getaddrinfo.c` and `freeaddrinfo.c`

Each node of the result is one block with the structure, the address and the canonical name in it.
There is one node for UDP and one for TCP, as the hints want.
-/

namespace Mintlib.Addrinfo

open Mintlib.Text Posix
open Checked (Stop)

abbrev AI_PASSIVE : BitVec 32 := 0x0001
abbrev AI_CANONNAME : BitVec 32 := 0x0002
abbrev AI_NUMERICHOST : BitVec 32 := 0x0004
abbrev AI_ADDRCONFIG : BitVec 32 := 0x0020

abbrev AF_INET : ℤ := 2

abbrev SOCK_STREAM : ℤ := 1
abbrev SOCK_DGRAM : ℤ := 2
abbrev SOCK_RAW : ℤ := 3

abbrev IPPROTO_TCP : ℤ := 6
abbrev IPPROTO_UDP : ℤ := 17

abbrev INADDR_ANY : UInt32 := 0
abbrev INADDR_LOOPBACK : UInt32 := 0x7f000001
abbrev INADDR_NONE : UInt32 := 0xffffffff

/-- `sizeof (struct addrinfo)` and `sizeof (struct sockaddr_in)`. -/
def SIZEOF_ADDRINFO : ℕ := 32
def SIZEOF_SOCKADDR_IN : ℕ := 16

structure Hints where
  ai_flags : BitVec 32
  ai_family : ℤ
  ai_socktype : ℤ
  ai_protocol : ℤ

structure Hostent where
  h_name : Option Str
  h_addrtype : ℤ
  h_length : ℤ
  h_addr : UInt32

/-- What the functions that are called find out. -/
structure Resolver where
  /-- `getifaddrs` succeeds. -/
  getifaddrs : Bool
  inet_addr : Str → UInt32
  /-- `h_errno` as it was before. -/
  h_errno : ℤ
  /-- The entry, or `h_errno`. -/
  gethostbyname : Str → Except ℤ Hostent
  /-- The number, and what is behind it. -/
  strtoul : Str → ℕ × Str
  getservbyname : Str → Option UInt16

def gaiErrorFromHerrno (h_errno : ℤ) : ℤ :=
  if h_errno = 1 then EAI_NONAME
  else if h_errno = 4 then EAI_NODATA
  else if h_errno = 3 then EAI_FAIL
  else if h_errno = 2 then EAI_AGAIN
  else EAI_SYSTEM

/-- The `switch` over `hints->ai_socktype`. -/
def protocolOf (socktype : ℤ) : Except ℤ ℤ :=
  if socktype = SOCK_STREAM then .ok IPPROTO_TCP
  else if socktype = SOCK_DGRAM then .ok IPPROTO_UDP
  else if socktype = SOCK_RAW ∨ socktype = 0 then .ok 0
  else .error EAI_SOCKTYPE

/-- `flags` and `protocol`. -/
def checkHints (R : Resolver) : Option Hints → Except ℤ (BitVec 32 × ℤ)
  | none => .ok (0, 0)
  | some hints =>
    if hints.ai_flags &&& ~~~(AI_PASSIVE ||| AI_CANONNAME ||| AI_NUMERICHOST ||| AI_ADDRCONFIG) ≠ 0
    then .error EAI_BADFLAGS
    else if hints.ai_family ≠ 0 ∧ hints.ai_family ≠ AF_INET then .error EAI_FAMILY
    else if hints.ai_flags &&& AI_ADDRCONFIG ≠ 0 ∧ R.getifaddrs = false then .error EAI_FAIL
    else match protocolOf hints.ai_socktype with
      | .error code => .error code
      | .ok protocol =>
        if hints.ai_protocol ≠ 0 ∧ protocol ≠ 0 ∧ protocol ≠ hints.ai_protocol then
          .error EAI_SERVICE
        else .ok (hints.ai_flags, protocol)

/-- `ip`, and `name` if the host was looked up. -/
def resolveNode (R : Resolver) (flags : BitVec 32) : Option Str → Except ℤ (UInt32 × Option Str)
  | none => .ok (if flags &&& AI_PASSIVE ≠ 0 then INADDR_ANY else INADDR_LOOPBACK, none)
  | some node =>
    if R.inet_addr node ≠ INADDR_NONE then .ok (R.inet_addr node, none)
    else if flags &&& AI_NUMERICHOST ≠ 0 then .error (gaiErrorFromHerrno R.h_errno)
    else match R.gethostbyname node with
      | .error h_errno => .error (gaiErrorFromHerrno h_errno)
      | .ok entry =>
        if entry.h_length ≠ 4 ∨ entry.h_addrtype ≠ AF_INET then .error EAI_FAMILY
        else .ok (entry.h_addr, if flags &&& AI_CANONNAME ≠ 0 then entry.h_name else none)

def resolveService (R : Resolver) : Option Str → Except ℤ UInt16
  | none => .ok 0
  | some service =>
    let (d, rest) := R.strtoul service
    if rest = [] then (if 65535 < d then .error EAI_SERVICE else .ok (UInt16.ofNat d))
    else match R.getservbyname service with
      | none => .error EAI_SERVICE
      | some port => .ok port

structure Request where
  flags : BitVec 32
  protocol : ℤ
  ip : UInt32
  port : UInt16
  name : Option Str

/-- Everything in front of `building results`, or the error that is returned. -/
def lookup (R : Resolver) (node service : Option Str) (hints : Option Hints) :
    Except ℤ Request := do
  let (flags, protocol) ← checkHints R hints
  let (ip, name) ← resolveNode R flags node
  let name := if flags &&& AI_CANONNAME ≠ 0 ∧ name = none then node else name
  let port ← resolveService R service
  .ok ⟨flags, protocol, ip, port, name⟩

structure SockaddrIn where
  sin_port : UInt16
  sin_addr : UInt32

/-- A node in a block of `size` bytes. `ai_addr` and `ai_canonname` are offsets in it, with what is
stored there; `ai_next` is the number of another block. -/
structure Node where
  size : ℕ
  ai_flags : BitVec 32
  ai_family : ℤ
  ai_socktype : ℤ
  ai_protocol : ℤ
  ai_addrlen : ℕ
  ai_addr : ℕ × SockaddrIn
  ai_canonname : Option (ℕ × Str)
  ai_next : Option ℕ

/-- The calls of `malloc` so far, and the blocks in the order in which they were given, without
those that were freed. -/
structure Heap where
  calls : ℕ
  blocks : List (Option Node)

/-- `len` bytes are stored in a block of `size` bytes. -/
def store (size offset len : ℕ) : Except Stop Unit :=
  if offset + len ≤ size then .ok () else .error .bounds

def Heap.failed (heap : Heap) : Heap := { heap with calls := heap.calls + 1 }

def Heap.add (heap : Heap) (node : Node) : Heap := ⟨heap.calls + 1, heap.blocks ++ [some node]⟩

def nameSize : Option Str → ℕ
  | some canonname => canonname.length + 1
  | none => 0

/-- `malloc` says which calls succeed. -/
def makeaddrinfo (malloc : ℕ → Bool) (af type proto : ℤ) (addr : SockaddrIn) (addrlen : ℕ)
    (canonname : Option Str) (heap : Heap) : Except Stop (Option Node × Heap) :=
  let size := SIZEOF_ADDRINFO + addrlen + nameSize canonname
  if malloc heap.calls then do
    let ai_addr := SIZEOF_ADDRINFO
    store size ai_addr addrlen
    let res : Node := ⟨size, 0, af, type, proto, addrlen, (ai_addr, addr), none, none⟩
    match canonname with
    | none => .ok (some res, heap)
    | some canonname => do
      let ai_canonname := ai_addr + SIZEOF_ADDRINFO + addrlen
      store size ai_canonname (canonname.length + 1)
      .ok (some { res with ai_canonname := some (ai_canonname, canonname) }, heap)
  else .ok (none, heap.failed)

def makeipv4info (malloc : ℕ → Bool) (type proto : ℤ) (ip : UInt32) (port : UInt16)
    (name : Option Str) (heap : Heap) : Except Stop (Option Node × Heap) :=
  makeaddrinfo malloc AF_INET type proto ⟨port, ip⟩ SIZEOF_SOCKADDR_IN name heap

structure Result where
  code : ℤ
  res : Option ℕ
  heap : Heap

/-- The part for one protocol. The list in `*res` goes behind the new node; for UDP, which comes
first, that is `NULL`. -/
def addNode (malloc : ℕ → Bool) (type proto : ℤ) (req : Request) (result : Result) :
    Except Stop Result := do
  let (info, heap) ← makeipv4info malloc type proto req.ip req.port req.name result.heap
  match info with
  | none => .ok ⟨EAI_SYSTEM, result.res, heap⟩
  | some info =>
    let flags := if req.flags &&& AI_PASSIVE ≠ 0 then AI_PASSIVE else 0
    .ok ⟨0, some heap.blocks.length,
      heap.add { info with ai_next := result.res, ai_flags := info.ai_flags ||| flags }⟩

def addUdp (malloc : ℕ → Bool) (req : Request) (result : Result) : Except Stop Result :=
  if req.protocol = 0 ∨ req.protocol = IPPROTO_UDP then
    addNode malloc SOCK_DGRAM IPPROTO_UDP req result
  else .ok result

def addTcp (malloc : ℕ → Bool) (req : Request) (result : Result) : Except Stop Result :=
  if result.code = 0 ∧ (req.protocol = 0 ∨ req.protocol = IPPROTO_TCP) then
    addNode malloc SOCK_STREAM IPPROTO_TCP req result
  else .ok result

/-- `getaddrinfo`, with nothing else in the heap. -/
def getaddrinfo (R : Resolver) (malloc : ℕ → Bool) (node service : Option Str)
    (hints : Option Hints) : Except Stop Result :=
  match lookup R node service hints with
  | .error code => .ok ⟨code, none, ⟨0, []⟩⟩
  | .ok req => do
    let result ← addUdp malloc req ⟨0, none, ⟨0, []⟩⟩
    addTcp malloc req result

/-- The loop of `freeaddrinfo`: a block that is not there can be neither read nor freed. -/
def freeaddrinfo : ℕ → Option ℕ → Heap → Except Stop Heap
  | 0, _, _ => .error .steps
  | _ + 1, none, heap => .ok heap
  | steps + 1, some p, heap =>
    match heap.blocks[p]? with
    | some (some node) =>
      freeaddrinfo steps node.ai_next { heap with blocks := heap.blocks.set p none }
    | _ => .error .bounds

/-- The structure, the address and the name are in the block one behind the other. -/
def Node.Inside (node : Node) : Prop :=
  SIZEOF_ADDRINFO ≤ node.ai_addr.1 ∧ node.ai_addr.1 + node.ai_addrlen ≤ node.size ∧
    ∀ p ∈ node.ai_canonname, node.ai_addr.1 + node.ai_addrlen ≤ p.1 ∧
      p.1 + p.2.length + 1 ≤ node.size

def Heap.Empty (heap : Heap) : Prop := ∀ block ∈ heap.blocks, block = none

/-- Nothing is stored outside of a block; the nodes of a result are right and `freeaddrinfo` frees
each of them once; and an error leaves nothing. -/
def Right (out : Except Stop Result) : Prop :=
  ∃ result, out = .ok result ∧
    if result.code = 0 then
      (∀ block ∈ result.heap.blocks, ∃ node, block = some node ∧ node.Inside) ∧
        ∃ heap, freeaddrinfo (result.heap.blocks.length + 1) result.res result.heap = .ok heap ∧
          heap.Empty
    else result.res = none ∧ result.heap.Empty

def Named (node : Option Str) (hints : Option Hints) : Prop :=
  ∃ h ∈ hints, h.ai_flags &&& AI_CANONNAME ≠ 0 ∧ node ≠ none

def Both (hints : Option Hints) : Prop :=
  ∀ h ∈ hints, h.ai_socktype ≠ SOCK_STREAM ∧ h.ai_socktype ≠ SOCK_DGRAM

section Lookup

variable {R : Resolver} {node service : Option Str} {hints : Option Hints} {req : Request}

theorem protocolOf_ok {socktype protocol : ℤ} (h : protocolOf socktype = .ok protocol) :
    protocol = 0 ∧ socktype ≠ SOCK_STREAM ∧ socktype ≠ SOCK_DGRAM ∨
      (protocol = IPPROTO_UDP ∨ protocol = IPPROTO_TCP) ∧
        ¬ (socktype ≠ SOCK_STREAM ∧ socktype ≠ SOCK_DGRAM) := by
  unfold protocolOf at h
  split_ifs at h with hstream hdgram hraw
  · exact .inr ⟨.inr (Except.ok.inj h).symm, fun hno => hno.1 hstream⟩
  · exact .inr ⟨.inl (Except.ok.inj h).symm, fun hno => hno.2 hdgram⟩
  · exact .inl ⟨(Except.ok.inj h).symm, hstream, hdgram⟩

theorem checkHints_ok {flags : BitVec 32} {protocol : ℤ}
    (h : checkHints R hints = .ok (flags, protocol)) :
    (flags &&& AI_CANONNAME ≠ 0 ↔ ∃ h ∈ hints, h.ai_flags &&& AI_CANONNAME ≠ 0) ∧
      (protocol = 0 ∧ Both hints ∨
        (protocol = IPPROTO_UDP ∨ protocol = IPPROTO_TCP) ∧ ¬ Both hints) := by
  cases hints with
  | none =>
    obtain ⟨rfl, rfl⟩ := Prod.mk.inj (Except.ok.inj h)
    exact ⟨iff_of_false (by decide) (fun ⟨_, hmem, _⟩ => nomatch hmem),
      .inl ⟨rfl, fun _ hmem => nomatch hmem⟩⟩
  | some hints =>
    have hboth : Both (some hints) ↔
        hints.ai_socktype ≠ SOCK_STREAM ∧ hints.ai_socktype ≠ SOCK_DGRAM :=
      ⟨fun hall => hall hints rfl, fun hno h hmem => Option.some.inj hmem ▸ hno⟩
    rw [checkHints] at h
    split_ifs at h
    cases hprotocol : protocolOf hints.ai_socktype with
    | error code =>
      rw [hprotocol] at h
      cases h
    | ok protocol' =>
      rw [hprotocol] at h
      simp only at h
      split_ifs at h
      obtain ⟨rfl, rfl⟩ := Prod.mk.inj (Except.ok.inj h)
      refine ⟨⟨fun hflags => ⟨hints, rfl, hflags⟩, fun ⟨_, hmem, hflags⟩ => ?_⟩, ?_⟩
      · rw [← Option.some.inj hmem] at hflags
        exact hflags
      · rw [hboth]
        exact protocolOf_ok hprotocol

theorem resolveNode_ok {flags : BitVec 32} {ip : UInt32} {name : Option Str}
    (h : resolveNode R flags node = .ok (ip, name)) (hname : name ≠ none) :
    flags &&& AI_CANONNAME ≠ 0 ∧ node ≠ none := by
  cases node with
  | none => exact absurd (Prod.mk.inj (Except.ok.inj h)).2.symm hname
  | some node =>
    refine ⟨?_, Option.some_ne_none node⟩
    by_contra hflags
    rw [resolveNode] at h
    simp only [if_neg (not_not.mpr hflags)] at h
    split_ifs at h
    · exact hname (Prod.mk.inj (Except.ok.inj h)).2.symm
    · cases hentry : R.gethostbyname node with
      | error h_errno =>
        rw [hentry] at h
        cases h
      | ok entry =>
        rw [hentry] at h
        simp only at h
        split_ifs at h
        exact hname (Prod.mk.inj (Except.ok.inj h)).2.symm

theorem lookup_ok (h : lookup R node service hints = .ok req) :
    (req.name ≠ none ↔ Named node hints) ∧
      (req.protocol = 0 ∧ Both hints ∨
        (req.protocol = IPPROTO_UDP ∨ req.protocol = IPPROTO_TCP) ∧ ¬ Both hints) := by
  rw [lookup] at h
  cases hcheck : checkHints R hints with
  | error code =>
    rw [hcheck] at h
    cases h
  | ok p =>
    obtain ⟨flags, protocol⟩ := p
    obtain ⟨hflags, hprotocol⟩ := checkHints_ok hcheck
    rw [hcheck] at h
    cases hnode : resolveNode R flags node with
    | error code =>
      simp only [hnode, bind, Except.bind] at h
      cases h
    | ok q =>
      obtain ⟨ip, name⟩ := q
      cases hservice : resolveService R service with
      | error code =>
        simp only [hnode, hservice, bind, Except.bind] at h
        cases h
      | ok port =>
        simp only [hnode, hservice, bind, Except.bind] at h
        obtain rfl := Except.ok.inj h
        refine ⟨?_, hprotocol⟩
        have hnamed : Named node hints ↔ flags &&& AI_CANONNAME ≠ 0 ∧ node ≠ none := by
          rw [hflags]
          exact ⟨fun ⟨h, hmem, hflag, hne⟩ => ⟨⟨h, hmem, hflag⟩, hne⟩,
            fun ⟨⟨h, hmem, hflag⟩, hne⟩ => ⟨h, hmem, hflag, hne⟩⟩
        rw [hnamed]
        show (if flags &&& AI_CANONNAME ≠ 0 ∧ name = none then node else name) ≠ none ↔ _
        split
        · next hdefault => exact (and_iff_right hdefault.1).symm
        · next hdefault =>
          refine ⟨resolveNode_ok hnode, fun hwanted hnone => hdefault ⟨hwanted.1, hnone⟩⟩

end Lookup

section Nodes

variable {malloc : ℕ → Bool} {type proto : ℤ} {req : Request} {result : Result} {heap : Heap}

def plainNode (type proto : ℤ) (req : Request) (next : Option ℕ) : Node where
  size := SIZEOF_ADDRINFO + SIZEOF_SOCKADDR_IN
  ai_flags := 0 ||| if req.flags &&& AI_PASSIVE ≠ 0 then AI_PASSIVE else 0
  ai_family := AF_INET
  ai_socktype := type
  ai_protocol := proto
  ai_addrlen := SIZEOF_SOCKADDR_IN
  ai_addr := (SIZEOF_ADDRINFO, ⟨req.port, req.ip⟩)
  ai_canonname := none
  ai_next := next

theorem plainNode_inside (type proto : ℤ) (req : Request) (next : Option ℕ) :
    (plainNode type proto req next).Inside :=
  ⟨le_refl _, le_refl _, fun _ h => nomatch h⟩

theorem addNode_eq : addNode malloc type proto req result =
    if malloc result.heap.calls = false then .ok ⟨EAI_SYSTEM, result.res, result.heap.failed⟩
    else if req.name = none then
      .ok ⟨0, some result.heap.blocks.length, result.heap.add (plainNode type proto req result.res)⟩
    else .error .bounds := by
  rw [addNode, makeipv4info, makeaddrinfo]
  cases hm : malloc result.heap.calls with
  | false => rfl
  | true =>
    cases hname : req.name with
    | none => rfl
    | some name =>
      have hover : store (SIZEOF_ADDRINFO + SIZEOF_SOCKADDR_IN + nameSize (some name))
          (SIZEOF_ADDRINFO + SIZEOF_ADDRINFO + SIZEOF_SOCKADDR_IN) (name.length + 1) =
            .error .bounds := by
        rw [store, nameSize, if_neg]
        have hsize : 0 < SIZEOF_ADDRINFO := by decide
        omega
      have haddr : store (SIZEOF_ADDRINFO + SIZEOF_SOCKADDR_IN + nameSize (some name))
          SIZEOF_ADDRINFO SIZEOF_SOCKADDR_IN = .ok () := by
        rw [store, if_pos (Nat.le_add_right _ _)]
      simp only [haddr, hover, if_true, bind, Except.bind, Bool.true_eq_false, if_false,
        reduceCtorEq]

theorem right_one (calls : ℕ) {node : Node} (hin : node.Inside) (hnext : node.ai_next = none) :
    Right (.ok ⟨0, some 0, ⟨calls, [some node]⟩⟩) := by
  refine ⟨_, rfl, ?_⟩
  rw [if_pos rfl]
  refine ⟨fun block hmem => ⟨node, List.mem_singleton.mp hmem, hin⟩, ⟨calls, [none]⟩, ?_, ?_⟩
  · show freeaddrinfo 1 node.ai_next ⟨calls, [none]⟩ = _
    rw [hnext]
    rfl
  · exact fun block hmem => List.mem_singleton.mp hmem

theorem right_two (calls : ℕ) {udp tcp : Node} (hudp : udp.Inside) (htcp : tcp.Inside)
    (hnext : udp.ai_next = none) (hnext' : tcp.ai_next = some 0) :
    Right (.ok ⟨0, some 1, ⟨calls, [some udp, some tcp]⟩⟩) := by
  refine ⟨_, rfl, ?_⟩
  rw [if_pos rfl]
  refine ⟨fun block hmem => ?_, ⟨calls, [none, none]⟩, ?_, ?_⟩
  · rcases List.mem_cons.mp hmem with rfl | hmem
    · exact ⟨udp, rfl, hudp⟩
    · exact ⟨tcp, List.mem_singleton.mp hmem, htcp⟩
  · show freeaddrinfo 2 tcp.ai_next ⟨calls, [some udp, none]⟩ = _
    rw [hnext']
    show freeaddrinfo 1 udp.ai_next ⟨calls, [none, none]⟩ = _
    rw [hnext]
    rfl
  · intro block hmem
    rcases List.mem_cons.mp hmem with rfl | hmem
    · rfl
    · exact List.mem_singleton.mp hmem

theorem right_nothing (code : ℤ) (calls : ℕ) : Right (.ok ⟨code, none, ⟨calls, []⟩⟩) := by
  refine ⟨_, rfl, ?_⟩
  split
  · exact ⟨fun block hmem => (nomatch hmem), _, rfl, fun block hmem => (nomatch hmem)⟩
  · exact ⟨rfl, fun block hmem => (nomatch hmem)⟩

theorem not_right_leak {code : ℤ} {p : ℕ} (h : code ≠ 0) : ¬ Right (.ok ⟨code, some p, heap⟩) := by
  rintro ⟨result, heq, hright⟩
  obtain rfl := Except.ok.inj heq
  rw [if_neg h] at hright
  cases hright.1

theorem not_right_error {stop : Stop} : ¬ Right (.error stop) :=
  fun ⟨_, heq, _⟩ => nomatch heq

end Nodes

theorem right_single {malloc : ℕ → Bool} {type proto : ℤ} {req : Request} :
    Right (addNode malloc type proto req ⟨0, none, ⟨0, []⟩⟩) ↔ malloc 0 = false ∨ req.name = none := by
  rw [addNode_eq]
  by_cases hm : malloc 0 = false
  · rw [if_pos hm]
    exact iff_of_true (right_nothing EAI_SYSTEM 1) (.inl hm)
  · rw [if_neg hm]
    by_cases hname : req.name = none
    · rw [if_pos hname]
      exact iff_of_true (right_one 1 (plainNode_inside type proto req none) rfl) (.inr hname)
    · rw [if_neg hname]
      exact iff_of_false not_right_error (fun h => h.elim hm hname)

theorem right_both {malloc : ℕ → Bool} {req : Request} (hprotocol : req.protocol = 0) :
    Right (addUdp malloc req ⟨0, none, ⟨0, []⟩⟩ >>= addTcp malloc req) ↔
      malloc 0 = false ∨ (req.name = none ∧ malloc 1 = true) := by
  rw [addUdp, if_pos (.inl hprotocol), addNode_eq]
  by_cases hm : malloc 0 = false
  · rw [if_pos hm]
    exact iff_of_true (right_nothing EAI_SYSTEM 1) (.inl hm)
  · rw [if_neg hm]
    by_cases hname : req.name = none
    · rw [if_pos hname]
      show Right (addTcp malloc req
        ⟨0, some 0, ⟨1, [some (plainNode SOCK_DGRAM IPPROTO_UDP req none)]⟩⟩) ↔ _
      rw [addTcp, if_pos ⟨rfl, .inl hprotocol⟩, addNode_eq]
      by_cases hm' : malloc 1 = false
      · rw [if_pos hm']
        refine iff_of_false (not_right_leak (by decide)) (fun h => h.elim hm fun h => ?_)
        rw [hm'] at h
        cases h.2
      · rw [if_neg hm', if_pos hname]
        exact iff_of_true (right_two 2 (plainNode_inside _ _ req none) (plainNode_inside _ _ req _)
          rfl rfl) (.inr ⟨hname, Bool.eq_true_of_not_eq_false hm'⟩)
    · rw [if_neg hname]
      exact iff_of_false not_right_error (fun h => h.elim hm fun h => hname h.1)

/-- What is returned is right exactly if an error comes first, or if there is no canonical name and
the second node, where two are wanted, is not the only one that cannot be had. -/
theorem addrinfo_iff (R : Resolver) (malloc : ℕ → Bool) (node service : Option Str)
    (hints : Option Hints) :
    Right (getaddrinfo R malloc node service hints) ↔
      (∃ code, lookup R node service hints = .error code) ∨ malloc 0 = false ∨
        (¬ Named node hints ∧ (Both hints → malloc 1 = true)) := by
  cases hlookup : lookup R node service hints with
  | error code =>
    rw [getaddrinfo, hlookup]
    exact iff_of_true (right_nothing code 0) (.inl ⟨code, rfl⟩)
  | ok req =>
    obtain ⟨hnamed, hprotocol⟩ := lookup_ok hlookup
    have hno : ¬ ∃ code, (.ok req : Except ℤ Request) = .error code := fun ⟨_, heq⟩ => nomatch heq
    have hcall : getaddrinfo R malloc node service hints =
        addUdp malloc req ⟨0, none, ⟨0, []⟩⟩ >>= addTcp malloc req := by
      rw [getaddrinfo, hlookup]
    rw [hcall, or_iff_right hno, ← hnamed, not_not]
    rcases hprotocol with ⟨hzero, hboth⟩ | ⟨hone, hboth⟩
    · rw [right_both hzero]
      simp only [hboth, true_imp_iff]
    · have hsingle : (req.name = none ∧ (Both hints → malloc 1 = true)) ↔ req.name = none :=
        and_iff_left fun h => absurd h hboth
      rw [hsingle]
      rcases hone with hudp | htcp
      · have hstep : addUdp malloc req ⟨0, none, ⟨0, []⟩⟩ >>= addTcp malloc req =
            addNode malloc SOCK_DGRAM IPPROTO_UDP req ⟨0, none, ⟨0, []⟩⟩ := by
          have hid : addTcp malloc req = Except.ok :=
            funext fun result => if_neg fun h => by
              rw [hudp] at h
              exact absurd h.2 (by decide)
          rw [addUdp, if_pos (.inr hudp), hid]
          cases addNode malloc SOCK_DGRAM IPPROTO_UDP req ⟨0, none, ⟨0, []⟩⟩ <;> rfl
        rw [hstep, right_single]
      · have hstep : addUdp malloc req ⟨0, none, ⟨0, []⟩⟩ >>= addTcp malloc req =
            addNode malloc SOCK_STREAM IPPROTO_TCP req ⟨0, none, ⟨0, []⟩⟩ := by
          rw [addUdp, if_neg (by rw [htcp]; decide)]
          exact if_pos ⟨rfl, .inr htcp⟩
        rw [hstep, right_single]

/-- A host `"h"` with one address. -/
def demoResolver : Resolver where
  getifaddrs := true
  inet_addr _ := INADDR_NONE
  h_errno := 0
  gethostbyname _ := .ok ⟨some [104], AF_INET, 4, 1⟩
  strtoul _ := (0, [])
  getservbyname _ := none

def demoHints : Hints := ⟨AI_CANONNAME, 0, SOCK_STREAM, 0⟩

/-- The name `"h"` is stored behind the block. And of two nodes the second one cannot be had, and
the first one is left. -/
theorem canonical_name_outside :
    ¬ Right (getaddrinfo demoResolver (fun _ => true) (some [104]) none (some demoHints)) ∧
      ¬ Right (getaddrinfo demoResolver (· = 0) (some [104]) none none) := by
  have hleak : ¬ Right (.ok ⟨EAI_SYSTEM, some 0,
      ⟨2, [some (plainNode SOCK_DGRAM IPPROTO_UDP ⟨0, 0, 1, 0, none⟩ none)]⟩⟩) :=
    not_right_leak (by decide)
  have hbounds : ¬ Right (.error .bounds) := not_right_error
  exact ⟨hbounds, hleak⟩

end Mintlib.Addrinfo
