import Casm.Lib.Ip

namespace Casm.Boot
open Bytes GoNet

/-- A byte slice with its array. -/
structure Buffer where
  cells : List UInt8
  len : Nat
  fits : len ≤ cells.length

def Buffer.bytes (b : Buffer) : List UInt8 :=
  b.cells.take b.len

/-- Overwrite the cells at the front. -/
def Buffer.write (b : Buffer) (s : List UInt8) : Buffer where
  cells := s ++ b.cells.drop s.length
  len := b.len
  fits := by
    have fits := b.fits
    rw [List.length_append, List.length_drop]
    omega

structure AddrKind where
  ip : Buffer
  port : Int
  zone : List UInt8

inductive Network where
  | udp
  | tcp

inductive Addr where
  | host (network : Network) (a : AddrKind)
  | other

/-- The current address is empty before the first call of `Next`. -/
structure CIDR where
  port : Int
  net : IPNet
  ip : IP
  bcst : IP
  mask : IPMask

/-- The loop of `incrIP`, and whether it ran past the first byte. -/
def incrBytes : List UInt8 → List UInt8 × Bool
  | [] => ([], true)
  | b :: rest =>
    if (incrBytes rest).2 then ((b + 1) :: (incrBytes rest).1, b + 1 = 0) else (b :: (incrBytes rest).1, false)

def incrIP (ip : IP) : IP :=
  (incrBytes ip).1

namespace CIDR

def resetIP (c : CIDR) : CIDR :=
  { c with ip := [] }

def setBroadcast (c : CIDR) : CIDR :=
  { c with bcst := orComplement c.net.ip c.net.mask }

/-- The netmask is complemented in place, and complemented again at the end. -/
def setRandomMask (c : CIDR) (random : Nat → UInt8) : CIDR :=
  let flipped := complement c.net.mask
  { c with
    mask := andBytes ((List.range c.net.ip.length).map random) flipped
    net := { c.net with mask := complement flipped } }

def reset (c : CIDR) (random : Nat → UInt8) : CIDR :=
  c.resetIP.setBroadcast.setRandomMask random

def ensureIP (c : CIDR) (ip : Buffer) : Buffer :=
  if small : ip.cells.length < c.net.ip.length then
    ⟨List.replicate (max c.net.ip.length 16) 0, c.net.ip.length, List.length_replicate ▸ le_max_left ..⟩
  else ⟨ip.cells, c.net.ip.length, not_lt.mp small⟩

/-- What `skip` leaves in the buffer. -/
def fill (c : CIDR) (ip : Buffer) : Buffer :=
  ip.write (xorBytes c.ip c.mask)

def skip (c : CIDR) : Bool :=
  xorBytes c.ip c.mask == c.bcst || xorBytes c.ip c.mask == c.net.ip

/-- The loop of `nextIP`. -/
def skipLoop : Nat → CIDR → Buffer → Option (CIDR × Buffer)
  | 0, _, _ => none
  | fuel + 1, c, ip =>
    if c.skip then skipLoop fuel { c with ip := incrIP c.ip } (c.fill ip) else some (c, c.fill ip)

def nextIP (fuel : Nat) (c : CIDR) (ip : Buffer) : Option (CIDR × Buffer) :=
  let c' := if c.ip.length = 0 then { c with ip := c.net.ip } else { c with ip := incrIP c.ip }
  skipLoop fuel c' (c.ensureIP ip)

def bind (fuel : Nat) (c : CIDR) (a : AddrKind) : Option (CIDR × AddrKind) :=
  (nextIP fuel c a.ip).map fun (c', ip) => (c', { a with port := c.port, ip := ip })

def more (c : CIDR) : Bool :=
  contains c.net c.ip

def next (fuel : Nat) (c : CIDR) (addr : Addr) : Option (CIDR × Addr × Bool) :=
  match addr with
  | .host network a => (c.bind fuel a).map fun (c', a') => (c', .host network a', c'.more)
  | .other => some (c, .other, c.more)

/-- Call `Next` until it returns false, and list what the address was each time
it returned true. -/
def crawl : Nat → CIDR → Addr → Option (List Addr × CIDR × Addr)
  | 0, _, _ => none
  | fuel + 1, c, addr =>
    match c.next (fuel + 1) addr with
    | none => none
    | some (c, addr, false) => some ([], c, addr)
    | some (c, addr, true) =>
      (crawl fuel c addr).map fun (visited, c, last) => (addr :: visited, c, last)

end CIDR

/-- An IPv4 or IPv6 network that is given by one of its addresses and the length
of its front. -/
structure Block where
  addr : List UInt8
  ones : Nat
  family : addr.length = 4 ∧ 1 ≤ ones ∧ ones ≤ 32 ∨ addr.length = 16 ∧ 96 ≤ ones ∧ ones ≤ 128

/-- `NewCIDR`. -/
def newCIDR (b : Block) (port : Int) (random : Nat → UInt8) : CIDR :=
  CIDR.reset { port := port, net := parseCIDR b.addr b.ones, ip := [], bcst := [], mask := [] } random

/-- The addresses of the block are those that start with the same bits. -/
def Block.size (b : Block) : Nat :=
  2 ^ (8 * b.addr.length - b.ones)

def Block.Mem (b : Block) (x : IP) : Prop :=
  x.length = b.addr.length ∧ value x / b.size = value b.addr / b.size

def Block.first (b : Block) : Nat :=
  value b.addr / b.size * b.size

/-- The addresses from the start of the block on. -/
def Block.nth (b : Block) (j : Nat) : IP :=
  bigEndian b.addr.length (b.first + j)

def Block.network (b : Block) : IP :=
  b.nth 0

def Block.broadcast (b : Block) : IP :=
  b.nth (b.size - 1)

theorem value_incrBytes (s : List UInt8) :
    (incrBytes s).1.length = s.length ∧
      value (incrBytes s).1 + (if (incrBytes s).2 then 256 ^ s.length else 0) = value s + 1 := by
  induction s with
  | nil => exact ⟨rfl, rfl⟩
  | cons b rest ih =>
    obtain ⟨length, ih⟩ := ih
    by_cases carry : (incrBytes rest).2
    · have step : incrBytes (b :: rest) = ((b + 1) :: (incrBytes rest).1, decide (b + 1 = 0)) := if_pos carry
      rw [if_pos carry] at ih
      rw [step]
      refine ⟨congrArg Nat.succ length, ?_⟩
      rw [value, value, length]
      have digit : (b + 1).toNat = (b.toNat + 1) % 256 := UInt8.toNat_add b 1
      have small := b.toNat_lt
      by_cases wraps : b + 1 = 0
      · have full : b.toNat + 1 = 256 := by
          rw [wraps, UInt8.toNat_zero] at digit
          omega
        have scale : b.toNat * 256 ^ rest.length + 256 ^ rest.length = 256 ^ (rest.length + 1) := by
          rw [← Nat.succ_mul, Nat.succ_eq_add_one, full, pow_succ, Nat.mul_comm]
        simp only [wraps, decide_true, if_true, UInt8.toNat_zero, Nat.zero_mul, List.length_cons]
        omega
      · have below : b.toNat + 1 < 256 := by
          by_contra top
          exact wraps (UInt8.toNat_inj.mp (by rw [digit, UInt8.toNat_zero]; omega))
        rw [Nat.mod_eq_of_lt below] at digit
        simp only [wraps, decide_false, Bool.false_eq_true, if_false, digit, Nat.succ_mul]
        omega
    · have step : incrBytes (b :: rest) = (b :: (incrBytes rest).1, false) := if_neg carry
      rw [if_neg carry] at ih
      rw [step]
      refine ⟨congrArg Nat.succ length, ?_⟩
      rw [value, value, length, if_neg Bool.false_ne_true]
      omega

theorem incrIP_bigEndian (w x : Nat) : incrIP (bigEndian w x) = bigEndian w (x + 1) := by
  obtain ⟨length, step⟩ := value_incrBytes (bigEndian w x)
  have below := value_lt (incrIP (bigEndian w x))
  rw [bigEndian_length] at length step
  refine value_injective (length.trans (bigEndian_length ..).symm) ?_
  rw [incrIP, length] at below
  rw [value_bigEndian] at step ⊢
  rw [← Nat.mod_add_mod, ← step, incrIP]
  split
  · rw [Nat.add_mod_right, Nat.mod_eq_of_lt below]
  · rw [Nat.add_zero, Nat.mod_eq_of_lt below]

section Counter

variable {c d : CIDR} {fuel j stop : Nat}

/-- The range when its counter is so many addresses after the network address. -/
def CIDR.place (c : CIDR) (j : Nat) : CIDR :=
  { c with ip := bigEndian c.net.ip.length (value c.net.ip + j) }

/-- The range when the next call starts at this place. -/
def CIDR.Awaits (c : CIDR) (j : Nat) (d : CIDR) : Prop :=
  j = 0 ∧ d = { c with ip := [] } ∨ ∃ i, j = i + 1 ∧ d = c.place i

/-- The places before a given one that are dialed. -/
def CIDR.dialed (c : CIDR) (j stop : Nat) : List Nat :=
  (List.range' j (stop - j)).filter fun i => !(c.place i).skip

theorem place_succ (j : Nat) : { c.place j with ip := incrIP (c.place j).ip } = c.place (j + 1) := by
  simp only [CIDR.place, incrIP_bigEndian, Nat.add_assoc]

theorem place_zero : { c with ip := c.net.ip } = c.place 0 := by
  simp only [CIDR.place, Nat.add_zero, bigEndian_value]

theorem dialed_self : c.dialed stop stop = [] := by
  rw [CIDR.dialed, Nat.sub_self, List.range'_zero, List.filter_nil]

theorem dialed_skip (short : j < stop) (skip : (c.place j).skip = true) : c.dialed j stop = c.dialed (j + 1) stop := by
  have count : stop - j = stop - (j + 1) + 1 := by omega
  rw [CIDR.dialed, count, List.range'_succ, List.filter_cons_of_neg (by rw [skip]; decide)]
  rfl

theorem dialed_keep (short : j < stop) (keep : (c.place j).skip = false) :
    c.dialed j stop = j :: c.dialed (j + 1) stop := by
  have count : stop - j = stop - (j + 1) + 1 := by omega
  rw [CIDR.dialed, count, List.range'_succ, List.filter_cons_of_pos (by rw [keep]; decide)]
  rfl

theorem ensureIP_len (ip : Buffer) : (c.ensureIP ip).len = c.net.ip.length := by
  rw [CIDR.ensureIP]
  split
  · rfl
  · rfl

theorem fill_bytes {ip : Buffer} (width : c.mask.length = c.net.ip.length) (len : ip.len = c.net.ip.length) :
    ((c.place j).fill ip).bytes = xorBytes (c.place j).ip c.mask := by
  have length : (c.place j).ip.length = c.net.ip.length := bigEndian_length ..
  exact List.take_left' ((length_xorBytes (width.trans length.symm)).trans (length.trans len.symm))

/-- The loop stops at the next place that is dialed. -/
theorem skipLoop_place {ip : Buffer} (keep : (c.place stop).skip = false) (before : j ≤ stop)
    (enough : stop - j < fuel) :
    ∃ k ip', CIDR.skipLoop fuel (c.place j) ip = some (c.place k, (c.place k).fill ip') ∧ ip'.len = ip.len ∧
      k ≤ stop ∧ j ≤ k ∧ (c.place k).skip = false ∧ c.dialed j stop = c.dialed k stop := by
  induction fuel generalizing j ip with
  | zero => omega
  | succ fuel ih =>
    rw [CIDR.skipLoop]
    by_cases skip : (c.place j).skip = true
    · have short : j < stop := by
        refine lt_of_le_of_ne before ?_
        rintro rfl
        rw [keep] at skip
        cases skip
      obtain ⟨k, ip', run, len, bound, after, kept, rest⟩ := @ih (j + 1) ((c.place j).fill ip) short (by omega)
      rw [if_pos skip, place_succ, run]
      exact ⟨k, ip', rfl, len, bound, by omega, kept, (dialed_skip short skip).trans rest⟩
    · rw [if_neg skip]
      exact ⟨j, ip, rfl, rfl, before, le_rfl, Bool.eq_false_of_not_eq_true skip, rfl⟩

theorem nextIP_place (some : c.net.ip.length ≠ 0) (awaits : c.Awaits j d) (ip : Buffer) :
    CIDR.nextIP fuel d ip = CIDR.skipLoop fuel (c.place j) (c.ensureIP ip) := by
  rcases awaits with ⟨rfl, rfl⟩ | ⟨i, rfl, rfl⟩
  · rw [← place_zero]
    rfl
  · have length : (c.place i).ip.length = c.net.ip.length := bigEndian_length ..
    rw [CIDR.nextIP, if_neg (length.trans_ne some), place_succ]
    rfl

theorem next_place (some : c.net.ip.length ≠ 0) (width : c.mask.length = c.net.ip.length) (awaits : c.Awaits j d)
    (keep : (c.place stop).skip = false) (before : j ≤ stop) (enough : stop - j < fuel) (network : Network)
    (a : AddrKind) :
    ∃ k a', d.next fuel (.host network a) = Option.some (c.place k, .host network a', (c.place k).more) ∧
      a'.port = c.port ∧ a'.ip.bytes = xorBytes (c.place k).ip c.mask ∧ k ≤ stop ∧ j ≤ k ∧
      (c.place k).skip = false ∧ c.dialed j stop = c.dialed k stop := by
  obtain ⟨k, ip', run, len, rest⟩ := @skipLoop_place c fuel j stop (c.ensureIP a.ip) keep before enough
  have port : d.port = c.port := by
    rcases awaits with ⟨_, rfl⟩ | ⟨i, _, rfl⟩
    · rfl
    · rfl
  refine ⟨k, { a with port := d.port, ip := (c.place k).fill ip' }, ?_, port,
    fill_bytes width (len.trans (ensureIP_len a.ip)), rest⟩
  rw [CIDR.next, CIDR.bind, nextIP_place some awaits, run]
  rfl

/-- The crawl ends at the first dialed place outside the network, and has named all those
before it. -/
theorem crawl_place (some : c.net.ip.length ≠ 0) (width : c.mask.length = c.net.ip.length) (awaits : c.Awaits j d)
    (keep : (c.place stop).skip = false) (outside : (c.place stop).more = false)
    (inside : ∀ i < stop, (c.place i).skip = false → (c.place i).more = true) (before : j ≤ stop)
    (enough : stop - j < fuel) (network : Network) (a : AddrKind) :
    ∃ (visited : List AddrKind) (c' : CIDR) (last : AddrKind),
      d.crawl fuel (.host network a) = Option.some (visited.map (Addr.host network), c', .host network last) ∧
      (∀ v ∈ visited, v.port = c.port) ∧ last.port = c.port ∧
      visited.map (·.ip.bytes) = (c.dialed j stop).map fun i => xorBytes (c.place i).ip c.mask := by
  induction fuel generalizing j d a with
  | zero => omega
  | succ fuel ih =>
    obtain ⟨k, a', run, port, bytes, bound, after, kept, rest⟩ :=
      next_place some width awaits keep before enough network a
    rw [CIDR.crawl, run, rest]
    rcases bound.lt_or_eq with short | rfl
    · obtain ⟨visited, c', last, run', ports, portLast, dialed⟩ := ih (.inr ⟨k, rfl, rfl⟩) short (by omega) a'
      refine ⟨a' :: visited, c', last, ?_, List.forall_mem_cons.mpr ⟨port, ports⟩, portLast, ?_⟩
      · simp only [inside k short kept, run', Option.map_some, List.map_cons]
      · rw [dialed_keep short kept, List.map_cons, List.map_cons, bytes, dialed]
    · refine ⟨[], c.place k, a', ?_, List.forall_mem_nil _, port, ?_⟩
      · rw [outside]
        rfl
      · rw [dialed_self]
        rfl

end Counter

section Reset

variable {addr : List UInt8} {ones : Nat} {random : Nat → UInt8}

/-- The random bytes, cut to the bits behind the front. -/
def padOf (addr : List UInt8) (ones : Nat) (random : Nat → UInt8) : IPMask :=
  andBytes ((List.range addr.length).map random) (complement (cidrMask addr.length ones))

def networkOf (addr : List UInt8) (ones : Nat) : IP :=
  andBytes addr (cidrMask addr.length ones)

/-- A range of any network before its first call. -/
def freshCIDR (addr : List UInt8) (ones : Nat) (port : Int) (random : Nat → UInt8) : CIDR where
  port := port
  net := parseCIDR addr ones
  ip := []
  bcst := orComplement (networkOf addr ones) (cidrMask addr.length ones)
  mask := padOf addr ones random

theorem length_networkOf (addr : List UInt8) (ones : Nat) : (networkOf addr ones).length = addr.length :=
  length_andBytes (length_cidrMask ..)

theorem length_padOf (addr : List UInt8) (ones : Nat) (random : Nat → UInt8) :
    (padOf addr ones random).length = addr.length := by
  have width : (complement (cidrMask addr.length ones)).length = ((List.range addr.length).map random).length := by
    rw [complement, List.length_map, length_cidrMask, List.length_map, List.length_range]
  rw [padOf, length_andBytes width, List.length_map, List.length_range]

/-- Of an address the pad changes only what is behind the front. -/
theorem andBytes_xor_padOf {x : IP} (width : x.length = addr.length) :
    andBytes (xorBytes x (padOf addr ones random)) (cidrMask addr.length ones) =
      andBytes x (cidrMask addr.length ones) := by
  have width' : ((List.range addr.length).map random).length = x.length := by
    rw [List.length_map, List.length_range, width]
  exact andBytes_xorBytes width' ((length_cidrMask ..).trans width.symm)

theorem reset_eq_fresh (family : addr.length = 4 ∨ addr.length = 16) {c : CIDR} (net : c.net = parseCIDR addr ones) :
    c.reset random = freshCIDR addr ones c.port random := by
  have ip : c.net.ip = networkOf addr ones := by rw [net]; exact parseCIDR_ip family ones
  have mask : c.net.mask = cidrMask addr.length ones := by rw [net]; rfl
  have same : { c.net with mask := complement (complement c.net.mask) } = parseCIDR addr ones := by
    rw [complement_complement, ← net]
  simp only [CIDR.reset, CIDR.setRandomMask, CIDR.setBroadcast, CIDR.resetIP, same]
  rw [ip, mask, length_networkOf]
  rfl

theorem length_fresh_net (family : addr.length = 4 ∨ addr.length = 16) (port : Int) :
    (freshCIDR addr ones port random).net.ip.length = addr.length := by
  rw [freshCIDR, parseCIDR_ip family]
  exact length_networkOf ..

end Reset

namespace Block

variable (b : Block)

theorem bits : b.ones ≤ 8 * b.addr.length := by
  have family := b.family
  omega

theorem lengths : b.addr.length = 4 ∨ b.addr.length = 16 :=
  b.family.imp And.left And.left

theorem size_pos : 0 < b.size := by
  unfold size
  positivity

theorem value_networkOf : value (networkOf b.addr b.ones) = b.first := by
  obtain ⟨k, multiple⟩ := dvd_value_block b.bits
  obtain ⟨lower, upper⟩ := (andBytes_eq_iff rfl b.bits).mp rfl
  rw [networkOf]
  rw [multiple] at lower upper ⊢
  have quotient : value b.addr / b.size = k := by
    rw [Nat.div_eq_iff b.size_pos, size]
    rw [Nat.mul_comm] at lower upper
    omega
  rw [first, quotient, size, Nat.mul_comm]

theorem first_add_size_le : b.first + b.size ≤ 256 ^ b.addr.length := by
  rw [← b.value_networkOf]
  exact value_block_le b.bits

theorem length_nth (j : Nat) : (b.nth j).length = b.addr.length :=
  bigEndian_length ..

theorem value_nth {j : Nat} (inside : j < b.size) : value (b.nth j) = b.first + j := by
  have top := b.first_add_size_le
  rw [nth, value_bigEndian, Nat.mod_eq_of_lt (by omega)]

theorem networkOf_eq : networkOf b.addr b.ones = b.network := by
  refine value_injective ((length_networkOf ..).trans (b.length_nth 0).symm) ?_
  rw [b.value_networkOf, network, b.value_nth b.size_pos, Nat.add_zero]

theorem orComplement_eq : orComplement b.network (cidrMask b.addr.length b.ones) = b.broadcast := by
  have width : (orComplement b.network (cidrMask b.addr.length b.ones)).length = b.network.length :=
    length_orComplement ((length_cidrMask ..).trans (b.length_nth 0).symm)
  have last := value_orComplement b.bits
  have positive := b.size_pos
  rw [← networkOf, b.networkOf_eq, network, b.value_nth positive] at last
  refine value_injective (width.trans ((b.length_nth _).trans (b.length_nth _).symm)) ?_
  rw [broadcast, b.value_nth (by omega), network]
  unfold size at positive ⊢
  omega

theorem mem_iff_value (x : IP) :
    b.Mem x ↔ x.length = b.addr.length ∧ b.first ≤ value x ∧ value x < b.first + b.size := by
  have positive := b.size_pos
  rw [Mem, Nat.div_eq_iff positive, ← first]
  refine and_congr_right fun _ => ?_
  omega

theorem mem_iff_masked {x : IP} (width : x.length = b.addr.length) :
    b.Mem x ↔ andBytes x (cidrMask b.addr.length b.ones) = networkOf b.addr b.ones := by
  rw [mem_iff_value, networkOf, andBytes_eq_iff width b.bits, ← networkOf, b.value_networkOf, and_iff_right width]
  rfl

theorem contains_iff_mem {x : IP} (width : x.length = b.addr.length) :
    contains (parseCIDR b.addr b.ones) x = true ↔ b.Mem x := by
  have family : b.addr.length = 4 ∨ b.addr.length = 16 ∧ 96 ≤ b.ones :=
    b.family.imp And.left fun long => ⟨long.1, long.2.1⟩
  rw [contains_iff family width, b.mem_iff_masked width, networkOf]

theorem nth_mem {j : Nat} (inside : j < b.size) : b.Mem (b.nth j) := by
  rw [mem_iff_value, b.value_nth inside]
  exact ⟨b.length_nth j, by omega, by omega⟩

/-- The address after the last one of a block is not in it, also where the block
ends with the highest address and the counter starts over. -/
theorem nth_size_not_mem : ¬ b.Mem (b.nth b.size) := by
  have family := b.family
  rw [b.mem_iff_masked (b.length_nth _), nth, ← b.value_networkOf, size]
  exact andBytes_past b.bits (by omega)

theorem exists_nth {x : IP} (mem : b.Mem x) : ∃ j < b.size, b.nth j = x := by
  obtain ⟨width, lower, upper⟩ := (b.mem_iff_value x).mp mem
  refine ⟨value x - b.first, by omega, ?_⟩
  rw [nth, Nat.add_sub_cancel' lower, ← width, bigEndian_value]

theorem nth_inj {i j : Nat} (inside : i < b.size) (inside' : j < b.size) (same : b.nth i = b.nth j) : i = j := by
  have values := congrArg value same
  rw [b.value_nth inside, b.value_nth inside'] at values
  omega

/-- The random bytes, cut to the bits that tell the addresses of the block apart. -/
def pad (random : Nat → UInt8) : IPMask :=
  padOf b.addr b.ones random

/-- What is dialed at the place of the nth address. -/
def shuffled (random : Nat → UInt8) (j : Nat) : IP :=
  xorBytes (b.nth j) (b.pad random)

def skipped (random : Nat → UInt8) (j : Nat) : Bool :=
  b.shuffled random j == b.broadcast || b.shuffled random j == b.network

/-- The places from a given one on that are dialed. -/
def remaining (random : Nat → UInt8) (j : Nat) : List Nat :=
  (List.range' j (b.size - j)).filter fun i => !b.skipped random i

variable (random : Nat → UInt8)

theorem length_pad : (b.pad random).length = b.addr.length :=
  length_padOf ..

theorem length_xor_pad {x : IP} (width : x.length = b.addr.length) :
    (xorBytes x (b.pad random)).length = b.addr.length :=
  (length_xorBytes ((b.length_pad random).trans width.symm)).trans width

theorem mem_xor_pad_iff {x : IP} (width : x.length = b.addr.length) :
    b.Mem (xorBytes x (b.pad random)) ↔ b.Mem x := by
  rw [b.mem_iff_masked width, b.mem_iff_masked (b.length_xor_pad random width), pad, andBytes_xor_padOf width]

theorem xor_pad_twice {x : IP} (width : x.length = b.addr.length) :
    xorBytes (xorBytes x (b.pad random)) (b.pad random) = x :=
  xorBytes_xorBytes ((b.length_pad random).trans width.symm)

theorem shuffled_inj {i j : Nat} (inside : i < b.size) (inside' : j < b.size)
    (same : b.shuffled random i = b.shuffled random j) : i = j := by
  refine b.nth_inj inside inside' ?_
  rw [← b.xor_pad_twice random (b.length_nth i), ← b.xor_pad_twice random (b.length_nth j)]
  exact congrArg (xorBytes · _) same

theorem mem_iff_shuffled (x : IP) : b.Mem x ↔ ∃ j < b.size, b.shuffled random j = x := by
  constructor
  · intro mem
    obtain ⟨j, inside, same⟩ := b.exists_nth ((b.mem_xor_pad_iff random mem.1).mpr mem)
    refine ⟨j, inside, ?_⟩
    rw [shuffled, same, b.xor_pad_twice random mem.1]
  · rintro ⟨j, inside, rfl⟩
    exact (b.mem_xor_pad_iff random (b.length_nth j)).mpr (b.nth_mem inside)

/-- The search for an address to dial ends behind the block at the latest. -/
theorem skipped_size : b.skipped random b.size = false := by
  have outside : ¬ b.Mem (b.shuffled random b.size) := fun mem =>
    b.nth_size_not_mem ((b.mem_xor_pad_iff random (b.length_nth _)).mp mem)
  have positive := b.size_pos
  rw [skipped, Bool.or_eq_false_iff, beq_eq_false_iff_ne, beq_eq_false_iff_ne]
  refine ⟨fun same => outside ?_, fun same => outside ?_⟩
  · rw [same]
    exact b.nth_mem (by omega)
  · rw [same]
    exact b.nth_mem positive

theorem remaining_size : b.remaining random b.size = [] := by
  rw [remaining, Nat.sub_self, List.range'_zero, List.filter_nil]

theorem mem_remaining_zero {j : Nat} :
    j ∈ b.remaining random 0 ↔
      j < b.size ∧ b.shuffled random j ≠ b.network ∧ b.shuffled random j ≠ b.broadcast := by
  rw [remaining, List.mem_filter, Bool.not_eq_true', skipped, Bool.or_eq_false_iff, beq_eq_false_iff_ne,
    beq_eq_false_iff_ne, Nat.sub_zero, List.mem_range'_1, Nat.zero_add,
    and_iff_right j.zero_le, and_comm (a := b.shuffled random j ≠ b.broadcast)]

theorem mem_dialed_iff (x : IP) :
    x ∈ (b.remaining random 0).map (b.shuffled random) ↔ b.Mem x ∧ x ≠ b.network ∧ x ≠ b.broadcast := by
  rw [List.mem_map, b.mem_iff_shuffled random]
  constructor
  · rintro ⟨j, mem, rfl⟩
    obtain ⟨inside, host⟩ := (b.mem_remaining_zero random).mp mem
    exact ⟨⟨j, inside, rfl⟩, host⟩
  · rintro ⟨⟨j, inside, rfl⟩, host⟩
    exact ⟨j, (b.mem_remaining_zero random).mpr ⟨inside, host⟩, rfl⟩

theorem dialed_nodup : ((b.remaining random 0).map (b.shuffled random)).Nodup := by
  refine List.Nodup.map_on ?_ (List.Nodup.filter _ List.nodup_range')
  intro i memI j memJ same
  have inside := ((b.mem_remaining_zero random).mp memI).1
  have inside' := ((b.mem_remaining_zero random).mp memJ).1
  exact b.shuffled_inj random inside inside' same

end Block

section Crawl

variable (b : Block) (port : Int) (random : Nat → UInt8)

/-- The range between two calls, by its counter. -/
def crawler (ip : IP) : CIDR where
  port := port
  net := parseCIDR b.addr b.ones
  ip := ip
  bcst := b.broadcast
  mask := b.pad random

theorem reset_eq {c : CIDR} (net : c.net = parseCIDR b.addr b.ones) :
    c.reset random = crawler b c.port random [] := by
  rw [reset_eq_fresh b.lengths net, freshCIDR, b.networkOf_eq, b.orComplement_eq]
  rfl

variable {b random}

theorem crawler_net (ip : IP) : (crawler b port random ip).net.ip = b.network :=
  (parseCIDR_ip b.lengths b.ones).trans b.networkOf_eq

theorem length_crawler_net (ip : IP) : (crawler b port random ip).net.ip.length = b.addr.length :=
  (congrArg List.length (crawler_net port ip)).trans (b.length_nth 0)

theorem crawler_net_ne (ip : IP) : (crawler b port random ip).net.ip.length ≠ 0 := by
  have family := b.family
  rw [length_crawler_net]
  omega

theorem length_crawler_mask (ip : IP) :
    (crawler b port random ip).mask.length = (crawler b port random ip).net.ip.length :=
  (b.length_pad random).trans (length_crawler_net port ip).symm

theorem place_crawler (j : Nat) : (crawler b port random []).place j = crawler b port random (b.nth j) := by
  have first : value b.network = b.first := b.value_nth b.size_pos
  rw [CIDR.place, length_crawler_net, crawler_net, first]
  rfl

theorem skip_crawler (j : Nat) : ((crawler b port random []).place j).skip = b.skipped random j := by
  rw [place_crawler, CIDR.skip, Block.skipped, crawler_net]
  rfl

theorem more_crawler {j : Nat} (inside : j ≤ b.size) :
    ((crawler b port random []).place j).more = decide (j < b.size) := by
  rw [place_crawler, Bool.eq_iff_iff, decide_eq_true_iff, CIDR.more]
  refine (b.contains_iff_mem (b.length_nth j)).trans ⟨fun mem => lt_of_le_of_ne inside ?_, b.nth_mem⟩
  rintro rfl
  exact b.nth_size_not_mem mem

theorem dialed_crawler (j : Nat) : (crawler b port random []).dialed j b.size = b.remaining random j := by
  simp only [CIDR.dialed, skip_crawler, Block.remaining]

/-- The place that the next call looks at first. -/
def Upcoming (b : Block) (j : Nat) (ip : IP) : Prop :=
  j = 0 ∧ ip = [] ∨ ∃ i, j = i + 1 ∧ ip = b.nth i

theorem Upcoming.awaits {j : Nat} {ip : IP} (upcoming : Upcoming b j ip) :
    (crawler b port random []).Awaits j (crawler b port random ip) := by
  rcases upcoming with ⟨rfl, rfl⟩ | ⟨i, rfl, rfl⟩
  · exact .inl ⟨rfl, rfl⟩
  · exact .inr ⟨i, rfl, (place_crawler port i).symm⟩

theorem skip_crawler_size : ((crawler b port random []).place b.size).skip = false :=
  (skip_crawler port b.size).trans (b.skipped_size random)

theorem next_crawler {fuel j : Nat} {ip : IP} (network : Network) (a : AddrKind) (upcoming : Upcoming b j ip)
    (inside : j ≤ b.size) (enough : b.size - j < fuel) :
    ∃ k a', (crawler b port random ip).next fuel (.host network a) =
        some (crawler b port random (b.nth k), .host network a', decide (k < b.size)) ∧
      a'.port = port ∧ a'.ip.bytes = b.shuffled random k ∧ k ≤ b.size ∧
      b.remaining random j = b.remaining random k ∧
      (k < b.size → b.remaining random k = k :: b.remaining random (k + 1)) := by
  obtain ⟨k, a', run, isPort, bytes, bound, _, keep, rest⟩ := next_place (crawler_net_ne port [])
    (length_crawler_mask port []) (upcoming.awaits port) (skip_crawler_size port) inside enough network a
  rw [more_crawler port bound] at run
  rw [place_crawler] at run bytes
  refine ⟨k, a', run, isPort, bytes, bound, ?_, fun short => ?_⟩
  · rw [← dialed_crawler port, ← dialed_crawler port, rest]
  · rw [← dialed_crawler port, ← dialed_crawler port, dialed_keep short keep]

/-- A crawl dials what remains, in the order of the places. -/
theorem crawl_crawler {fuel : Nat} (network : Network) (a : AddrKind) (enough : b.size < fuel) :
    ∃ (visited : List AddrKind) (c : CIDR) (last : AddrKind),
      (crawler b port random []).crawl fuel (.host network a) =
        some (visited.map (Addr.host network), c, .host network last) ∧
      (∀ v ∈ visited, v.port = port) ∧ last.port = port ∧
      visited.map (·.ip.bytes) = (b.remaining random 0).map (b.shuffled random) := by
  have outside : ((crawler b port random []).place b.size).more = false := by
    rw [more_crawler port le_rfl, decide_eq_false (Nat.lt_irrefl _)]
  obtain ⟨visited, c, last, run, ports, portLast, dialed⟩ := crawl_place (crawler_net_ne port [])
    (length_crawler_mask port []) (.inl ⟨rfl, rfl⟩) (skip_crawler_size port) outside
    (fun i short _ => (more_crawler port short.le).trans (decide_eq_true short)) b.size.zero_le enough network a
  refine ⟨visited, c, last, run, ports, portLast, dialed.trans ?_⟩
  rw [dialed_crawler]
  refine List.map_congr_left fun i _ => ?_
  rw [place_crawler]
  rfl

end Crawl

/-- What a range is for: until `Next` returns false it dials the hosts of the
block, each of them once. -/
def Visits (b : Block) (port : Int) (c : CIDR) : Prop :=
  ∀ (network : Network) (a : AddrKind) (fuel : Nat), b.size < fuel →
    ∃ (visited : List AddrKind) (c' : CIDR) (last : AddrKind),
      c.crawl fuel (.host network a) = some (visited.map (Addr.host network), c', .host network last) ∧
        (∀ v ∈ visited, v.port = port) ∧ last.port = port ∧ (visited.map (·.ip.bytes)).Nodup ∧
        ∀ x, x ∈ visited.map (·.ip.bytes) ↔ b.Mem x ∧ x ≠ b.network ∧ x ≠ b.broadcast

theorem reset_visits {b : Block} {c : CIDR} (net : c.net = parseCIDR b.addr b.ones) (random : Nat → UInt8) :
    Visits b c.port (c.reset random) := by
  intro network a fuel enough
  rw [reset_eq b random net]
  obtain ⟨visited, c', last, run, ports, portLast, dialed⟩ :=
    @crawl_crawler b c.port random fuel network a enough
  refine ⟨visited, c', last, run, ports, portLast, ?_, fun x => ?_⟩
  · rw [dialed]
    exact b.dialed_nodup random
  · rw [dialed]
    exact b.mem_dialed_iff random x

/-- What a range can be after any calls. -/
inductive Reached (b : Block) (port : Int) : CIDR → Prop where
  | new (random : Nat → UInt8) : Reached b port (newCIDR b port random)
  | next {c c' : CIDR} {fuel : Nat} {addr addr' : Addr} {more : Bool} :
    Reached b port c → c.next fuel addr = some (c', addr', more) → Reached b port c'
  | reset {c : CIDR} (random : Nat → UInt8) : Reached b port c → Reached b port (c.reset random)

theorem skipLoop_frame {fuel : Nat} {c c' : CIDR} {ip ip' : Buffer} (run : c.skipLoop fuel ip = some (c', ip')) :
    c'.net = c.net ∧ c'.port = c.port := by
  induction fuel generalizing c ip with
  | zero => cases run
  | succ fuel ih =>
    rw [CIDR.skipLoop] at run
    split at run
    · have frame := ih run
      exact frame
    · cases run
      exact ⟨rfl, rfl⟩

theorem next_frame {fuel : Nat} {c c' : CIDR} {addr addr' : Addr} {more : Bool}
    (run : c.next fuel addr = some (c', addr', more)) : c'.net = c.net ∧ c'.port = c.port := by
  cases addr with
  | host network a =>
    obtain ⟨bound, bind, same⟩ := Option.map_eq_some_iff.mp run
    obtain ⟨found, loop, same'⟩ := Option.map_eq_some_iff.mp bind
    have frame := skipLoop_frame loop
    cases same'
    cases same
    rw [CIDR.nextIP] at loop
    split at frame
    · exact frame
    · exact frame
  | other =>
    cases run
    exact ⟨rfl, rfl⟩

/-- No call changes the subnet or the port. The netmask is the one from before
when `Reset` returns. -/
theorem Reached.frame {b : Block} {port : Int} {c : CIDR} (reached : Reached b port c) :
    c.net = parseCIDR b.addr b.ones ∧ c.port = port := by
  induction reached with
  | new random => exact ⟨congrArg CIDR.net (reset_eq b random rfl), rfl⟩
  | next _ run ih =>
    obtain ⟨net, same⟩ := next_frame run
    exact ⟨net.trans ih.1, same.trans ih.2⟩
  | reset random _ ih => exact ⟨congrArg CIDR.net (reset_eq b random ih.1), ih.2⟩

/-- A crawl of a block dials every address of it once, except for the network
address and the broadcast address, whatever the random bytes are and whatever
buffer it is given; and again after each `Reset`. -/
theorem crawl_exact (b : Block) (port : Int) :
    (∀ random, Visits b port (newCIDR b port random)) ∧
      ∀ c, Reached b port c →
        c.net.mask = cidrMask b.addr.length b.ones ∧ ∀ random, Visits b port (c.reset random) := by
  refine ⟨fun random => reset_visits rfl random, fun c reached => ?_⟩
  obtain ⟨net, rfl⟩ := reached.frame
  exact ⟨congrArg IPNet.mask net, reset_visits net⟩

theorem crawl_exact_small :
    let b : Block := ⟨[10, 0, 0, 1], 30, by decide⟩
    let c := newCIDR b 8822 fun _ => 7
    (c.reset fun _ => 1).net.mask = [255, 255, 255, 252] ∧
      ∃ (visited : List AddrKind) (c' : CIDR) (last : AddrKind),
        (c.reset fun _ => 2).crawl 5 (.host .udp ⟨⟨[], 0, le_rfl⟩, 0, []⟩) =
          some (visited.map (Addr.host .udp), c', .host .udp last) ∧
        ∀ x, x ∈ visited.map (·.ip.bytes) ↔ b.Mem x ∧ x ≠ b.network ∧ x ≠ b.broadcast := by
  intro b c
  have reached : Reached b 8822 c := .new _
  obtain ⟨-, again⟩ := crawl_exact b 8822
  have mask : cidrMask 4 30 = [255, 255, 255, 252] := by decide
  refine ⟨(again _ (reached.reset fun _ => 1)).1.trans mask, ?_⟩
  obtain ⟨visited, c', last, run, -, -, -, exact⟩ :=
    (again c reached).2 (fun _ => 2) .udp ⟨⟨[], 0, le_rfl⟩, 0, []⟩ 5 (by decide)
  exact ⟨visited, c', last, run, exact⟩

end Casm.Boot
