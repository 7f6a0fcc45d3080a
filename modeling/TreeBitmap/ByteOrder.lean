import TreeBitmap.Lib.Bytes
import TreeBitmap.Traversal
import TreeBitmap.Words

/-!
# Addresses as bytes

A client reads an IPv6 address with `inet_pton`, turns its bytes around with `hton_ipv6` and copies
them into a `struct ip_v6`.  `print_ptr` goes the same way back.  On a big-endian machine nothing is
turned around, and the two words of the structure stand the other way round.

Either way, the bits that the trie sees are those of the bytes, in the order in which they are
written.

## Main definitions

* `ByteOrder` — `__BYTE_ORDER__`.
* `IpV6.bytes`, `IpV6.ofBytes` — a `struct ip_v6` in memory.
* `htonIpv6`, `printPtr`, `readIp`, `readLine` — the conversions.
* `Stored.AnswersBytes` — what a lookup of 16 bytes has to return.
* `bitmapv6_run_bytes` — **what the trie says about bytes**.
-/

namespace TreeBitmap

open BitString Bytes

/-! ## The conversions -/

/-- `__BYTE_ORDER__`. -/
inductive ByteOrder
  | littleEndian
  | bigEndian
  deriving DecidableEq, Repr

/-- A word in memory. -/
def wordBytes : ByteOrder → BitVec 64 → List (BitVec 8)
  | .littleEndian, x => Bytes.littleEndian 8 x
  | .bigEndian, x => Bytes.bigEndian 8 x

/-- The word that some bytes of memory hold. -/
def wordOfBytes : ByteOrder → List (BitVec 8) → BitVec 64
  | .littleEndian, bs => toBitVec 64 (Bytes.bits bs.reverse)
  | .bigEndian, bs => toBitVec 64 (Bytes.bits bs)

/-- A `struct ip_v6` in memory. -/
def IpV6.bytes : ByteOrder → IpV6 → List (BitVec 8)
  | .littleEndian, ip => wordBytes .littleEndian ip.iplo ++ wordBytes .littleEndian ip.iphi
  | .bigEndian, ip => wordBytes .bigEndian ip.iphi ++ wordBytes .bigEndian ip.iplo

/-- The `struct ip_v6` that 16 bytes are copied to. -/
def IpV6.ofBytes : ByteOrder → List (BitVec 8) → IpV6
  | .littleEndian, bs =>
      { iplo := wordOfBytes .littleEndian (bs.take 8),
        iphi := wordOfBytes .littleEndian (bs.drop 8) }
  | .bigEndian, bs =>
      { iphi := wordOfBytes .bigEndian (bs.take 8),
        iplo := wordOfBytes .bigEndian (bs.drop 8) }

/-- `swap`. -/
def swap (ip : List (BitVec 8)) (i j : ℕ) : Option (List (BitVec 8)) := do
  let tmp ← ip[i]?
  let b ← ip[j]?
  let ip := ip.set i b
  some (ip.set j tmp)

/-- `hton_ipv6`. -/
def htonIpv6 (order : ByteOrder) (ip : List (BitVec 8)) : Option (List (BitVec 8)) :=
  match order with
  | .littleEndian =>
      (List.range (LENGTH_v6 / 16)).foldlM (fun ip i => swap ip i (LENGTH_v6 / 8 - i - 1)) ip
  | .bigEndian => some ip

/-- A line that is printed, with the bytes that `inet_ntop` writes as a text. -/
abbrev Line := List (BitVec 8) × ℕ × Nhi

/-- `print_ptr`. -/
def printPtr (order : ByteOrder) : Report IpV6 → Option Line
  | (ip, cidr, nhi) => do
      let addr := ip.bytes order
      let addr ← htonIpv6 order addr
      some (addr, cidr, nhi)

/-- How a client converts the bytes that `inet_pton` has read. -/
def readIp (order : ByteOrder) (addr : List (BitVec 8)) : Option IpV6 := do
  let addr ← htonIpv6 order addr
  some (IpV6.ofBytes order addr)

/-- How a client reads a line. -/
def readLine (order : ByteOrder) : Line → Option (Report IpV6)
  | (addr, cidr, nhi) => do
      let ip ← readIp order addr
      some (ip, cidr, nhi)

/-! ## Turning the bytes around -/

theorem htonIpv6_littleEndian {ip : List (BitVec 8)} (h : ip.length = LENGTH_v6 / 8) :
    htonIpv6 .littleEndian ip = some ip.reverse := by
  have hlen : ip.length = 16 := h
  obtain ⟨ip', hloop, hturned⟩ := Run.foldlM_range (n := LENGTH_v6 / 16)
    (f := fun ip i => swap ip i (LENGTH_v6 / 8 - i - 1)) (fun k ip' => Turned k ip ip')
    (turned_zero ip) fun i ip' hi hip' => by
      have hi' : i < 8 := hi
      have hlen' : ip'.length = 16 := hip'.length.trans hlen
      have ha : ip'[i]? = some ip'[i] := List.getElem?_eq_getElem (by omega)
      have hb : ip'[16 - i - 1]? = some ip'[16 - i - 1] := List.getElem?_eq_getElem (by omega)
      refine ⟨(ip'.set i ip'[16 - i - 1]).set (16 - i - 1) ip'[i], ?_, ?_⟩
      · have hj : LENGTH_v6 / 8 - i - 1 = 16 - i - 1 := rfl
        rw [swap, hj, ha, hb]
        rfl
      · have hstep := hip'.succ (by omega) ha (by rw [hlen]; exact hb)
        rwa [hlen] at hstep
  rw [htonIpv6, hloop, hturned.eq_reverse (by rw [h]; decide)]

/-- The bytes of an address in the order in which they are written. -/
def IpV6.network (ip : IpV6) : List (BitVec 8) :=
  Bytes.bigEndian 8 ip.iphi ++ Bytes.bigEndian 8 ip.iplo

theorem length_network (ip : IpV6) : ip.network.length = 16 := by
  rw [IpV6.network, List.length_append, length_bigEndian, length_bigEndian]

theorem bits_network (ip : IpV6) : Bytes.bits ip.network = IpAddr.bits ip := by
  rw [IpV6.network, bits_append, bits_bigEndian, bits_bigEndian]
  apply value_injective
  · rw [List.length_append, length_ofBitVec, length_ofBitVec, IpAddr.length_bits]
    rfl
  · have hbits : IpAddr.bits ip = ofBitVec ip.toBitVec := rfl
    rw [value_append, value_ofBitVec, value_ofBitVec, length_ofBitVec, hbits, value_ofBitVec,
      IpV6.toNat_toBitVec, IpV6.toNat]

theorem network_injective : Function.Injective IpV6.network := by
  intro ip ip' h
  apply IpAddr.bits_injective
  rw [← bits_network, ← bits_network, h]

theorem htonIpv6_bytes (order : ByteOrder) (ip : IpV6) :
    htonIpv6 order (ip.bytes order) = some ip.network := by
  cases order with
  | littleEndian =>
      have hlen : (ip.bytes .littleEndian).length = LENGTH_v6 / 8 := by
        simp [IpV6.bytes, wordBytes, LENGTH_v6]
      rw [htonIpv6_littleEndian hlen, IpV6.bytes, wordBytes, wordBytes, List.reverse_append,
        reverse_littleEndian, reverse_littleEndian, IpV6.network]
  | bigEndian => rfl

/-- The bytes of a word that is read from its bytes. -/
theorem bigEndian_toBitVec {bs : List (BitVec 8)} (h : bs.length = 8) :
    Bytes.bigEndian 8 (toBitVec 64 (Bytes.bits bs)) = bs := by
  apply bits_injective
  have hlen : (Bytes.bits bs).length = 64 := by rw [Bytes.length_bits, h]
  rw [bits_bigEndian, ofBitVec_toBitVec (by omega), hlen, Nat.sub_self, List.replicate_zero,
    List.append_nil]

/-- **A client reads the address that is written**, in either byte order. -/
theorem readIp_spec (order : ByteOrder) {addr : List (BitVec 8)} (h : addr.length = LENGTH_v6 / 8) :
    ∃ ip, readIp order addr = some ip ∧ ip.network = addr := by
  have hlen : addr.length = 16 := h
  let ip : IpV6 :=
    { iphi := toBitVec 64 (Bytes.bits (addr.take 8)),
      iplo := toBitVec 64 (Bytes.bits (addr.drop 8)) }
  refine ⟨ip, ?_, ?_⟩
  · cases order with
    | littleEndian =>
        rw [readIp, htonIpv6_littleEndian h, Option.bind_eq_bind, Option.bind_some, IpV6.ofBytes,
          wordOfBytes, wordOfBytes, List.take_reverse, List.drop_reverse, List.reverse_reverse,
          List.reverse_reverse, hlen]
    | bigEndian => rfl
  · rw [IpV6.network, bigEndian_toBitVec (by rw [List.length_take]; omega),
      bigEndian_toBitVec (by rw [List.length_drop]; omega), List.take_append_drop]

example : readIp .littleEndian [0x20, 0x01, 0x0d, 0xb8, 0, 0, 0, 0, 0, 0, 0, 0, 0, 0, 0, 1] =
    some ⟨0x20010db800000000#64, 1⟩ := by decide +kernel

/-! ## Lines -/

/-- A line as it is written. -/
def written (c : Report IpV6) : Line := (c.1.network, c.2)

theorem printPtr_eq (order : ByteOrder) (c : Report IpV6) :
    printPtr order c = some (written c) := by
  obtain ⟨ip, cidr, nhi⟩ := c
  rw [printPtr, htonIpv6_bytes]
  rfl

theorem readLine_written (order : ByteOrder) (c : Report IpV6) :
    readLine order (written c) = some c := by
  obtain ⟨ip, cidr, nhi⟩ := c
  obtain ⟨ip', hread, hip⟩ := readIp_spec order (length_network ip)
  obtain rfl := network_injective hip
  rw [written, readLine, hread]
  rfl

theorem mapM_printPtr (order : ByteOrder) (calls : List (Report IpV6)) :
    calls.mapM (printPtr order) = some (calls.map written) := by
  rw [funext (printPtr_eq order)]
  exact List.mapM_pure

theorem mapM_readLine (order : ByteOrder) (calls : List (Report IpV6)) :
    (calls.map written).mapM (readLine order) = some calls := by
  induction calls with
  | nil => rfl
  | cons c calls ih =>
      rw [List.map_cons, List.mapM_cons, readLine_written, ih]
      rfl

/-! ## Runs -/

/-- What a lookup of 16 bytes has to return: the next hop of the longest stored prefix whose bits
they start with, or `NULL`. -/
def Stored.AnswersBytes (T : Stored IpV6) (addr : List (BitVec 8)) (r : Nhi) : Prop :=
  (∃ p, T.lookup p = some r ∧ p.bits <+: Bytes.bits addr ∧
      ∀ q ∈ T, q.bits <+: Bytes.bits addr → q.cidr ≤ p.cidr) ∨
    (∀ q ∈ T, ¬ q.bits <+: Bytes.bits addr) ∧ r = 0

theorem Stored.Answers.bytes {T : Stored IpV6} {ip : IpV6} {r : Nhi} (h : T.Answers ip r) :
    T.AnswersBytes ip.network r := by
  rw [Stored.Answers] at h
  simp only [Prefix.matches_iff, ← bits_network] at h
  exact h

/-- **IPv6.**  After any run, on a machine of either byte order: a lookup of the 16 bytes of an
address returns the longest match of their bits, and the dump writes the bits that it reports, as a
machine of either byte order reads them. -/
theorem bitmapv6_run_bytes (order order' : ByteOrder) {m : Mm} (hm : m.Succeeds)
    {ops : List (Op IpV6)} (hops : (storedMachine IpV6).Legal ∅ ops) :
    ∃ root m' calls lines, ops.foldlM bitmapv6Step (.zero, m) = some (root, m') ∧
      (∀ addr : List (BitVec 8), addr.length = LENGTH_v6 / 8 →
        ∃ ip r, readIp order addr = some ip ∧ IpAddr.bits ip = Bytes.bits addr ∧
          bitmapv6DoSearch root ip = some r ∧
          ((storedMachine IpV6).exec ∅ ops).AnswersBytes addr r) ∧
      bitmapv6PrintAllPrefix root = some calls ∧ calls.mapM (printPtr order) = some lines ∧
      (lines.map fun l => (Bytes.bits l.1, l.2) : Multiset (List Bool × ℕ × Nhi)) =
        ((storedMachine IpV6).exec ∅ ops).entries.map
          (fun e => (IpAddr.bits e.1.printedIp, e.1.cidr, e.2)) ∧
      lines.mapM (readLine order') = some calls := by
  obtain ⟨⟨root, m'⟩, hrun, hmir⟩ := exists_trieStep_run hm hops
  obtain ⟨calls, hprint, hcalls⟩ := hmir.bitmapv6PrintAllPrefix
  refine ⟨root, m', calls, calls.map written, bitmapv6Step_eq ▸ hrun, fun addr haddr => ?_,
    hprint, mapM_printPtr order calls, ?_, mapM_readLine order' calls⟩
  · obtain ⟨ip, hread, rfl⟩ := readIp_spec order haddr
    obtain ⟨r, hsearch, hanswers⟩ := hmir.answers ip
    exact ⟨ip, r, hread, (bits_network ip).symm, hsearch, hanswers.bytes⟩
  · have hbits : ∀ c : Report IpV6, (Bytes.bits (written c).1, (written c).2) =
        (IpAddr.bits c.1, c.2) := fun c => by rw [written, bits_network]
    rw [List.map_map]
    simp only [Function.comp_def, hbits]
    rw [← Multiset.map_coe, hcalls, Stored.reports, Multiset.map_map]
    rfl

/-- A dump of a little-endian machine, read on a big-endian one. -/
theorem bitmapv6_run_bytes_docSlash32 :
    ∃ root m' calls lines, docOps.foldlM bitmapv6Step (.zero, mmInit simple) = some (root, m') ∧
      (∀ addr : List (BitVec 8), addr.length = LENGTH_v6 / 8 →
        ∃ ip r, readIp .littleEndian addr = some ip ∧ IpAddr.bits ip = Bytes.bits addr ∧
          bitmapv6DoSearch root ip = some r ∧
          ((storedMachine IpV6).exec ∅ docOps).AnswersBytes addr r) ∧
      bitmapv6PrintAllPrefix root = some calls ∧
      calls.mapM (printPtr .littleEndian) = some lines ∧
      (lines.map fun l => (Bytes.bits l.1, l.2) : Multiset (List Bool × ℕ × Nhi)) =
        ((storedMachine IpV6).exec ∅ docOps).entries.map
          (fun e => (IpAddr.bits e.1.printedIp, e.1.cidr, e.2)) ∧
      lines.mapM (readLine .bigEndian) = some calls :=
  bitmapv6_run_bytes .littleEndian .bigEndian succeeds_mmInit_simple legal_docOps

end TreeBitmap
