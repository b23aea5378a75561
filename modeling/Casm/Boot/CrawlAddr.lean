import Casm.Lib.Fault
import Casm.Boot.Crawl

namespace Casm.Boot
open Bytes GoNet

/-- The value of a text that consists of digits. -/
def digitsValue (text : List Char) : Option Nat :=
  if text ≠ [] ∧ text.all Char.isDigit then some (text.foldl (fun n c => 10 * n + (c.toNat - 48)) 0) else none

def errCIDROverflow : Fault :=
  .error "CIDR overflow"

/-- `strconv.ParseUint` in base ten, for eight bits. -/
def parseUint8 (text : List Char) : Except Fault Nat :=
  match digitsValue text with
  | none => .error (.error ("strconv.ParseUint: parsing \"" ++ String.ofList text ++ "\": invalid syntax"))
  | some n =>
    if n < 256 then .ok n
    else .error (.error ("strconv.ParseUint: parsing \"" ++ String.ofList text ++ "\": value out of range"))

namespace TranscoderCIDR

def stringToBytes (cidrBlock : List Char) : Except Fault (List UInt8) := do
  let num ← parseUint8 cidrBlock
  if num > 128 then throw errCIDROverflow else return [UInt8.ofNat num]

def bytesToString (b : List UInt8) : Except Fault (List Char) :=
  match b with
  | [] => .error (.panic "index out of range [0] with length 0")
  | first :: rest =>
    if rest ≠ [] ∨ first > 128 then .error errCIDROverflow else .ok (Nat.toDigits 10 first.toNat)

def validateBytes (b : List UInt8) : Except Fault Unit :=
  match b with
  | [] => .error (.panic "index out of range [0] with length 0")
  | first :: _ => if first > 128 then .error errCIDROverflow else .ok ()

end TranscoderCIDR

/-- A multiaddr `/ip4/host/udp/port/cidr/n`, or one with `ip6` or `tcp` in it: the
text and the bytes of the host, the port, and the byte that the transcoder has made
of the last component or has accepted in its place. -/
structure CrawlAddr where
  host : String
  addr : List UInt8
  port : UInt16
  cidr : List UInt8
  family : addr.length = 4 ∨ addr.length = 16
  accepted : (∃ text, TranscoderCIDR.stringToBytes text = .ok cidr) ∨
    cidr.length = 1 ∧ TranscoderCIDR.validateBytes cidr = .ok ()

/-- The number in the last component. -/
def CrawlAddr.ones (m : CrawlAddr) : Nat :=
  (m.cidr.headD 0).toNat

/-- `net.ParseCIDR`, for a host of these bytes. -/
def netParseCIDR (host : String) (addr : List UInt8) (ones : List Char) : Except Fault IPNet :=
  let invalid : Fault := .error ("invalid CIDR address: " ++ host ++ "/" ++ String.ofList ones)
  match digitsValue ones with
  | none => .error invalid
  | some n => if n < 0xFFFFFF ∧ n ≤ 8 * addr.length then .ok (parseCIDR addr n) else .error invalid

/-- `Reset` of a range whose subnet is nil: `setBroadcast` asks for the subnet's address. -/
def resetNil : Except Fault Unit :=
  .error (.panic "invalid memory address or nil pointer dereference")

/-- The strategy that `NewCIDR` returns. It looks at the error last. -/
def cidrStrategy (host : String) (addr : List UInt8) (ones : List Char) (port : Int) (random : Nat → UInt8) :
    Except Fault CIDR :=
  match netParseCIDR host addr ones with
  | .ok net => .ok (CIDR.reset { port := port, net := net, ip := [], bcst := [], mask := [] } random)
  | .error err => do
    resetNil
    throw err

/-- `ParseCIDR`. The host and the port come back from `DialArgs` and `SplitHostPort`
as they are. -/
def CrawlAddr.parseCIDR (m : CrawlAddr) : Except Fault ((Nat → UInt8) → Except Fault CIDR) := do
  let ones ← TranscoderCIDR.bytesToString m.cidr
  return cidrStrategy m.host m.addr ones m.port.toNat

/-- After finitely many calls `Next` returns false. -/
def CIDR.Ends (c : CIDR) : Prop :=
  ∀ (network : Network) (a : AddrKind), ∃ fuel, (c.crawl fuel (.host network a)).isSome

namespace CrawlAddr

variable (m : CrawlAddr)

theorem cidr_eq : ∃ b : UInt8, m.cidr = [b] ∧ b ≤ 128 := by
  rcases m.accepted with ⟨text, encoded⟩ | ⟨one, valid⟩
  · obtain ⟨num, -, encoded⟩ := Except.bind_eq_ok.mp encoded
    split at encoded
    · cases encoded
    · rename_i fits
      refine ⟨UInt8.ofNat num, (Except.ok.inj encoded).symm, UInt8.le_iff_toNat_le.mpr ?_⟩
      rw [UInt8.toNat_ofNat']
      have top : (128 : UInt8).toNat = 128 := rfl
      omega
  · obtain ⟨b, single⟩ := List.length_eq_one_iff.mp one
    rw [single, TranscoderCIDR.validateBytes] at valid
    split at valid
    · cases valid
    · rename_i fits
      exact ⟨b, single, UInt8.not_lt.mp fits⟩

/-- What the transcoder writes is read back as the same number. -/
theorem digitsValue_toDigits : ∀ n < 129, digitsValue (Nat.toDigits 10 n) = some n := by
  decide

theorem parseCIDR_eq : m.parseCIDR = .ok (cidrStrategy m.host m.addr (Nat.toDigits 10 m.ones) m.port.toNat) := by
  obtain ⟨b, single, fits⟩ := m.cidr_eq
  have text : TranscoderCIDR.bytesToString m.cidr = .ok (Nat.toDigits 10 m.ones) := by
    rw [ones, single]
    refine if_neg ?_
    rintro (more | large)
    · exact more rfl
    · exact absurd fits (UInt8.not_le.mpr large)
  rw [parseCIDR, text]
  rfl

theorem ones_le : m.ones ≤ 128 := by
  obtain ⟨b, single, fits⟩ := m.cidr_eq
  rw [ones, single]
  exact UInt8.le_iff_toNat_le.mp fits

theorem netParseCIDR_eq :
    netParseCIDR m.host m.addr (Nat.toDigits 10 m.ones) =
      if m.ones ≤ 8 * m.addr.length then .ok (GoNet.parseCIDR m.addr m.ones)
      else .error (.error ("invalid CIDR address: " ++ m.host ++ "/" ++ String.ofList (Nat.toDigits 10 m.ones))) := by
  have bound := m.ones_le
  have small : m.ones < 0xFFFFFF := by omega
  simp only [netParseCIDR, digitsValue_toDigits m.ones (by omega), small, true_and]

end CrawlAddr

/-- The crawl ends where a place outside the network is not skipped. -/
theorem ends_of_place {c : CIDR} {place : Nat} (some : c.net.ip.length ≠ 0) (width : c.mask.length = c.net.ip.length)
    (fresh : c.ip = []) (keep : (c.place place).skip = false) (outside : (c.place place).more = false) : c.Ends := by
  intro network a
  have found : ∃ i, (c.place i).skip = false ∧ (c.place i).more = false := ⟨place, keep, outside⟩
  have inside : ∀ i < Nat.find found, (c.place i).skip = false → (c.place i).more = true := by
    intro i early keeps
    exact Bool.eq_true_of_not_eq_false fun ends => Nat.find_min found early ⟨keeps, ends⟩
  have awaits : c.Awaits 0 c := .inl ⟨rfl, by rw [← fresh]⟩
  obtain ⟨visited, c', last, run, _⟩ := crawl_place some width awaits (Nat.find_spec found).1 (Nat.find_spec found).2
    inside (Nat.zero_le _) (Nat.lt_succ_self _) network a
  exact ⟨_, Option.isSome_of_eq_some run⟩

section Reset

variable {addr : List UInt8} {ones : Nat} {port : Int} {random : Nat → UInt8}

theorem place_ip (family : addr.length = 4 ∨ addr.length = 16) (j : Nat) :
    ((freshCIDR addr ones port random).place j).ip = bigEndian addr.length (value (networkOf addr ones) + j) := by
  have ip : (freshCIDR addr ones port random).net.ip = networkOf addr ones := parseCIDR_ip family ones
  rw [CIDR.place, ip, length_networkOf]

theorem skip_eq_false_iff (family : addr.length = 4 ∨ addr.length = 16) {j : Nat} :
    ((freshCIDR addr ones port random).place j).skip = false ↔
      xorBytes (bigEndian addr.length (value (networkOf addr ones) + j)) (padOf addr ones random) ≠
          orComplement (networkOf addr ones) (cidrMask addr.length ones) ∧
        xorBytes (bigEndian addr.length (value (networkOf addr ones) + j)) (padOf addr ones random) ≠
          networkOf addr ones := by
  have ip : (freshCIDR addr ones port random).net.ip = networkOf addr ones := parseCIDR_ip family ones
  rw [CIDR.skip, place_ip family, Bool.or_eq_false_iff, beq_eq_false_iff_ne, beq_eq_false_iff_ne]
  exact and_congr Iff.rfl (by rw [← ip]; exact Iff.rfl)

/-- The network address and the broadcast address have the front of the network. -/
theorem masked_network (addr : List UInt8) (ones : Nat) :
    andBytes (networkOf addr ones) (cidrMask addr.length ones) = networkOf addr ones :=
  andBytes_idem (length_cidrMask ..)

theorem masked_broadcast (bits : ones ≤ 8 * addr.length) :
    andBytes (orComplement (networkOf addr ones) (cidrMask addr.length ones)) (cidrMask addr.length ones) =
      networkOf addr ones := by
  have width : (cidrMask addr.length ones).length = (networkOf addr ones).length := by
    rw [length_cidrMask, length_networkOf]
  have last := value_orComplement bits
  have positive : 0 < 2 ^ (8 * addr.length - ones) := by positivity
  refine (andBytes_eq_iff ((length_orComplement width).trans (length_networkOf ..)) bits).mpr ?_
  rw [networkOf]
  omega

/-- What has another front is dialed. -/
theorem skip_eq_false_of_masked (family : addr.length = 4 ∨ addr.length = 16) (bits : ones ≤ 8 * addr.length)
    {j : Nat} (outside : andBytes (bigEndian addr.length (value (networkOf addr ones) + j))
      (cidrMask addr.length ones) ≠ networkOf addr ones) :
    ((freshCIDR addr ones port random).place j).skip = false := by
  rw [← andBytes_xor_padOf (bigEndian_length ..)] at outside
  rw [skip_eq_false_iff family]
  refine ⟨fun same => outside ?_, fun same => outside ?_⟩
  · rw [same, masked_broadcast bits]
  · rw [same, masked_network]

/-- The range of any network ends if a place outside the network is dialed. -/
theorem ends_of_fresh (family : addr.length = 4 ∨ addr.length = 16) {j : Nat}
    (keep : ((freshCIDR addr ones port random).place j).skip = false)
    (outside : ((freshCIDR addr ones port random).place j).more = false) :
    (freshCIDR addr ones port random).Ends := by
  have length := @length_fresh_net addr ones random family port
  exact ends_of_place (by omega) ((length_padOf ..).trans length.symm) rfl keep outside

/-- A network that is not everything ends. -/
theorem ends_of_front (family : addr.length = 4 ∨ addr.length = 16) (some : 1 ≤ ones)
    (bits : ones ≤ 8 * addr.length) : (freshCIDR addr ones port random).Ends := by
  have outside := andBytes_past bits some
  have past : ((freshCIDR addr ones port random).place (2 ^ (8 * addr.length - ones))).more = false := by
    refine Bool.eq_false_iff.mpr fun inside => outside ?_
    rw [CIDR.more, place_ip family] at inside
    exact masked_of_contains family (bigEndian_length ..) inside
  exact ends_of_fresh family (skip_eq_false_of_masked family bits outside) past

/-- Of three places with different addresses one is dialed. -/
theorem exists_dialed (family : addr.length = 4 ∨ addr.length = 16) (j : Nat)
    (fits : value (networkOf addr ones) + j + 2 < 256 ^ addr.length) :
    ∃ i ≤ 2, ((freshCIDR addr ones port random).place (j + i)).skip = false := by
  by_contra all
  have shown : ∀ i ≤ 2, bigEndian addr.length (value (networkOf addr ones) + (j + i)) =
        xorBytes (orComplement (networkOf addr ones) (cidrMask addr.length ones)) (padOf addr ones random) ∨
      bigEndian addr.length (value (networkOf addr ones) + (j + i)) =
        xorBytes (networkOf addr ones) (padOf addr ones random) := by
    intro i small
    have width : (padOf addr ones random).length =
        (bigEndian addr.length (value (networkOf addr ones) + (j + i))).length :=
      (length_padOf ..).trans (bigEndian_length ..).symm
    have skipped : ¬ ((freshCIDR addr ones port random).place (j + i)).skip = false :=
      fun keep => all ⟨i, small, keep⟩
    rw [skip_eq_false_iff family, not_and_or, not_ne_iff, not_ne_iff] at skipped
    rcases skipped with same | same
    · exact .inl ((xorBytes_xorBytes width).symm.trans (congrArg (xorBytes · _) same))
    · exact .inr ((xorBytes_xorBytes width).symm.trans (congrArg (xorBytes · _) same))
  have apart : ∀ i k, i ≤ 2 → k ≤ 2 → bigEndian addr.length (value (networkOf addr ones) + (j + i)) =
      bigEndian addr.length (value (networkOf addr ones) + (j + k)) → i = k := by
    intro i k small small' same
    have values := congrArg value same
    rw [value_bigEndian, value_bigEndian, Nat.mod_eq_of_lt (by omega), Nat.mod_eq_of_lt (by omega)] at values
    omega
  have first := shown 0 (by omega)
  have second := shown 1 (by omega)
  have third := shown 2 (by omega)
  -- two of them are at the same place
  rcases first with first | first <;> rcases second with second | second
  · exact absurd (apart 0 1 (by omega) (by omega) (first.trans second.symm)) (by omega)
  · rcases third with third | third
    · exact absurd (apart 0 2 (by omega) (by omega) (first.trans third.symm)) (by omega)
    · exact absurd (apart 1 2 (by omega) (by omega) (second.trans third.symm)) (by omega)
  · rcases third with third | third
    · exact absurd (apart 1 2 (by omega) (by omega) (second.trans third.symm)) (by omega)
    · exact absurd (apart 0 2 (by omega) (by omega) (first.trans third.symm)) (by omega)
  · exact absurd (apart 0 1 (by omega) (by omega) (first.trans second.symm)) (by omega)

theorem networkOf_zero (addr : List UInt8) : networkOf addr 0 = List.replicate addr.length 0 := by
  rw [networkOf, cidrMask_zero, andBytes_zero rfl]

/-- The crawl of all long addresses ends where it comes to those that are read as
short ones. -/
theorem ends_of_long (long : addr.length = 16) : (freshCIDR addr 0 port random).Ends := by
  have family : addr.length = 4 ∨ addr.length = 16 := .inr long
  have zero : value (networkOf addr 0) = 0 := by rw [networkOf_zero, value_replicate_zero]
  obtain ⟨i, small, keep⟩ := @exists_dialed addr 0 port random family (65535 * 2 ^ 32) (by
    rw [zero, long]
    norm_num)
  have mapped : (bigEndian 16 (65535 * 2 ^ 32 + i)).take 12 = v4InV6 := by
    interval_cases i <;> rfl
  have past : ((freshCIDR addr 0 port random).place (65535 * 2 ^ 32 + i)).more = false := by
    refine Bool.eq_false_iff.mpr fun inside => ?_
    rw [CIDR.more, place_ip family, zero, Nat.zero_add] at inside
    have notMapped := ((contains_wide long (by omega) (bigEndian_length ..)).mp inside).1
    rw [long] at notMapped
    exact notMapped mapped
  exact ends_of_fresh family keep past

theorem length_incrIP (ip : IP) : (incrIP ip).length = ip.length :=
  (value_incrBytes ip).1

theorem skipLoop_length {fuel : Nat} {c c' : CIDR} {ip ip' : Buffer} (run : c.skipLoop fuel ip = some (c', ip')) :
    c'.ip.length = c.ip.length := by
  induction fuel generalizing c ip with
  | zero => cases run
  | succ fuel ih =>
    rw [CIDR.skipLoop] at run
    split at run
    · rw [ih run]
      exact length_incrIP c.ip
    · cases run
      rfl

/-- All short addresses are in their network, and the counter never leaves it. -/
theorem more_of_short (short : addr.length = 4) {fuel : Nat} {c c' : CIDR} {network : Network} {a : AddrKind}
    {addr' : Addr} {more : Bool} (net : c.net = parseCIDR addr 0) (width : c.ip.length = 0 ∨ c.ip.length = 4)
    (run : c.next fuel (.host network a) = some (c', addr', more)) :
    more = true ∧ c'.net = parseCIDR addr 0 ∧ c'.ip.length = 4 ∧ ∃ a', addr' = .host network a' := by
  obtain ⟨frame, -⟩ := next_frame run
  obtain ⟨bound, bind, same⟩ := Option.map_eq_some_iff.mp run
  obtain ⟨found, loop, same'⟩ := Option.map_eq_some_iff.mp bind
  have length := skipLoop_length loop
  cases same'
  cases same
  have isNet : (parseCIDR addr 0).ip.length = 4 := by
    rw [parseCIDR_ip (.inl short)]
    exact (length_networkOf addr 0).trans short
  have width' : found.1.ip.length = 4 := by
    rw [length]
    split
    · rw [net, isNet]
    · rw [length_incrIP]
      omega
  refine ⟨?_, frame.trans net, width', _, rfl⟩
  rw [CIDR.more, frame, net, contains_iff (.inl short) (width'.trans short.symm), cidrMask_zero,
    andBytes_zero (width'.trans short.symm), andBytes_zero rfl]

theorem crawl_of_short (short : addr.length = 4) {c : CIDR} (net : c.net = parseCIDR addr 0)
    (width : c.ip.length = 0 ∨ c.ip.length = 4) (fuel : Nat) (network : Network) (a : AddrKind) :
    c.crawl fuel (.host network a) = none := by
  induction fuel generalizing c a with
  | zero => rfl
  | succ fuel ih =>
    rw [CIDR.crawl]
    cases run : c.next (fuel + 1) (.host network a) with
    | none => rfl
    | some result =>
      obtain ⟨c', addr', more⟩ := result
      obtain ⟨rfl, net', width', a', rfl⟩ := more_of_short short net width run
      simp only [ih net' (.inr width') a', Option.map_none]

end Reset

theorem CrawlAddr.strategy_eq (m : CrawlAddr) (bits : m.ones ≤ 8 * m.addr.length) (random : Nat → UInt8) :
    cidrStrategy m.host m.addr (Nat.toDigits 10 m.ones) m.port.toNat random =
      .ok (freshCIDR m.addr m.ones m.port.toNat random) := by
  rw [cidrStrategy, m.netParseCIDR_eq, if_pos bits]
  exact congrArg Except.ok (reset_eq_fresh m.family rfl)

/-- The strategy of an accepted crawl address returns a range that ends, except
for a short address with a front of no bits, whose crawl goes round, and one with
a front of more bits than it has, where the missing subnet is used before the
error is returned. -/
theorem strategy_finite_iff (m : CrawlAddr) :
    ∃ strategy, m.parseCIDR = .ok strategy ∧ ∀ random : Nat → UInt8,
      ((∃ msg, strategy random = .error (.error msg)) ∨ ∃ c, strategy random = .ok c ∧ c.Ends) ↔
        (m.addr.length = 4 → 1 ≤ m.ones ∧ m.ones ≤ 32) := by
  refine ⟨_, m.parseCIDR_eq, fun random => ?_⟩
  have top := m.ones_le
  by_cases bits : m.ones ≤ 8 * m.addr.length
  · simp only [m.strategy_eq bits, reduceCtorEq, exists_false, false_or, Except.ok.injEq, exists_eq_left']
    rcases Nat.eq_zero_or_pos m.ones with none | some
    · rw [none]
      rcases m.family with short | long
      · refine iff_of_false ?_ fun range => absurd (range short).1 (by omega)
        intro ends
        obtain ⟨fuel, ended⟩ := ends .udp ⟨⟨[], 0, le_rfl⟩, 0, []⟩
        rw [crawl_of_short short rfl (.inl rfl)] at ended
        cases ended
      · exact iff_of_true (ends_of_long long) fun short => absurd (short.symm.trans long) (by omega)
    · exact iff_of_true (ends_of_front m.family some bits) fun short => ⟨some, by omega⟩
  · rw [cidrStrategy, m.netParseCIDR_eq, if_neg bits]
    have short : m.addr.length = 4 := by
      rcases m.family with short | long
      · exact short
      · omega
    refine iff_of_false ?_ fun range => absurd (range short).2 (by omega)
    rintro (⟨msg, failed⟩ | ⟨c, returned, -⟩)
    · cases failed
    · cases returned

/-- The address `/ip4/10.0.0.0/udp/8822/cidr/33`. -/
def tooManyBits : CrawlAddr where
  host := "10.0.0.0"
  addr := [10, 0, 0, 0]
  port := 8822
  cidr := [33]
  family := .inl rfl
  accepted := .inl ⟨['3', '3'], by decide⟩

/-- The address `/ip4/10.0.0.0/udp/8822/cidr/0`. -/
def everyAddress : CrawlAddr where
  host := "10.0.0.0"
  addr := [10, 0, 0, 0]
  port := 8822
  cidr := [0]
  family := .inl rfl
  accepted := .inl ⟨['0'], by decide⟩

/-- The one strategy panics, the range of the other never ends. -/
theorem strategy_panics_or_goes_round :
    (∃ strategy, tooManyBits.parseCIDR = .ok strategy ∧
      ∀ random, strategy random = .error (.panic "invalid memory address or nil pointer dereference")) ∧
    ∃ strategy, everyAddress.parseCIDR = .ok strategy ∧
      ∀ random, ∃ c, strategy random = .ok c ∧
        ∀ fuel, c.crawl fuel (.host .udp ⟨⟨[], 0, le_rfl⟩, 0, []⟩) = none := by
  refine ⟨⟨_, rfl, fun _ => rfl⟩, _, everyAddress.parseCIDR_eq, fun random => ?_⟩
  exact ⟨_, everyAddress.strategy_eq (Nat.zero_le _) random, fun fuel => crawl_of_short rfl rfl (.inl rfl) fuel .udp _⟩

end Casm.Boot
