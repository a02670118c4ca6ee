import Gap.Lib.Ipv6Text
import Gap.Tunnel.Destination

namespace Gap.Tunnel

open Ipv6Text

/-!
# The address a gateway gives itself

The client makes its link-local address out of the text of its MAC address: it closes up the last
colon in place, and puts the last three bytes behind a fixed front into a command for the shell.

* `squeeze`, `cmdLladdr`, `ssystem` — from the file to the command.
* `HexByte`, `MacText` — MAC addresses as the file has them, in digits of either case.
* `gateway_address` — the address that the command assigns.
* `packets_to_their_gateway_only` — in the network, gateways do not get each other's packets.
-/

/-! ### The command -/

/-- The bytes of a text. -/
def ascii (s : String) : List UInt8 := s.toList.map fun c => UInt8.ofNat c.toNat

/-- `'%'`. -/
def percent : UInt8 := 37

/-- `read (macfile, macbuf, 128)`; behind the bytes read, `macbuf` is as the stack was. -/
def readMac (stale : Buf 128) (contents : List UInt8) : Buf 128 := stale.copy 0 (contents.take 128)

/-- The three stores into `macbuf`. -/
def squeeze (macbuf : Buf 128) : Buf 128 :=
  let macbuf := macbuf.copy 14 [macbuf ⟨15, by omega⟩]
  let macbuf := macbuf.copy 15 [macbuf ⟨16, by omega⟩]
  macbuf.copy 16 [0]

/-- The C string that starts at `macbuf + i`. -/
def macString (macbuf : Buf 128) (i : ℕ) : List UInt8 :=
  ((macbuf.front 128).drop i).takeWhile fun c => c != 0

/-- `ifr.ifr_name`. -/
def ifrName : List UInt8 := ascii "ipv6-umich"

/-- `cmd_lladdr_buf`, of 4096 bytes. -/
def cmdLladdr (macbuf : Buf 128) : List UInt8 :=
  (ascii "ifconfig " ++ ifrName ++ ascii " add fe80::c298:e5ff:fe" ++ macString macbuf 9 ++
    ascii "/64").take 4095

/-- What `ssystem` hands to the shell: the command is the format of a `vsnprintf` into `cmd[128]`.
    A format with a conversion in it has no arguments to convert. -/
def ssystem (fmt : List UInt8) : Option (List UInt8) :=
  if percent ∈ fmt then none else some (fmt.take 127)

/-- The command of a client whose MAC address file has these contents. -/
def lladdrCommand (stale : Buf 128) (contents : List UInt8) : Option (List UInt8) :=
  ssystem (cmdLladdr (squeeze (readMac stale contents)))

/-- A command that adds an address, with a prefix of 64 bits, to the TUN interface. -/
def Assigns (command : List UInt8) (addr : In6Addr) : Prop :=
  ∃ text, command = ascii "ifconfig " ++ ifrName ++ ascii " add " ++ text ++ ascii "/64" ∧
    inetPton6 text = some addr

/-! ### MAC addresses -/

/-- The byte that two hexadecimal digits spell. -/
def spelledBy (high low : UInt8) : Option UInt8 := do
  let x ← hexDigitValue high
  let y ← hexDigitValue low
  pure (UInt8.ofNat (16 * x + y))

/-- A byte as two digits. -/
structure HexByte where
  high : UInt8
  low : UInt8
  value : UInt8
  spelled : spelledBy high low = some value

/-- The digits. -/
def HexByte.text (h : HexByte) : List UInt8 := [h.high, h.low]

/-- A MAC address. -/
structure MacText where
  a : HexByte
  b : HexByte
  c : HexByte
  d : HexByte
  e : HexByte
  f : HexByte

/-- Its text, as it stands in the file. -/
def MacText.text (m : MacText) : List UInt8 :=
  m.a.text ++ Ipv6Text.colon :: m.b.text ++ Ipv6Text.colon :: m.c.text ++
    Ipv6Text.colon :: m.d.text ++ Ipv6Text.colon :: m.e.text ++ Ipv6Text.colon :: m.f.text

/-- The address with the last three bytes of a MAC address at its end. -/
def gatewayAddr (d e f : UInt8) : In6Addr := fun i =>
  [0xfe, 0x80, 0, 0, 0, 0, 0, 0, 0xc2, 0x98, 0xe5, 0xff, 0xfe, d, e, f].getD i 0

/-- The address of the gateway with this MAC address. -/
def MacText.addr (m : MacText) : In6Addr := gatewayAddr m.d.value m.e.value m.f.value

/-! ### Digits -/

theorem HexByte.digits (h : HexByte) :
    ∃ x y, hexDigitValue h.high = some x ∧ hexDigitValue h.low = some y ∧
      h.value = UInt8.ofNat (16 * x + y) := by
  obtain ⟨x, hx, hspelled⟩ := Option.bind_eq_some_iff.mp h.spelled
  obtain ⟨y, hy, hspelled⟩ := Option.bind_eq_some_iff.mp hspelled
  exact ⟨x, y, hx, hy, (Option.some.inj hspelled).symm⟩

/-- A digit is less than sixteen, and neither the end of a string nor a conversion. -/
theorem hexDigitValue_lt {c : UInt8} {x : ℕ} (h : hexDigitValue c = some x) :
    x < 16 ∧ c ≠ 0 ∧ c ≠ percent := by
  have hall : ∀ n < 256, ∀ x ∈ hexDigitValue (UInt8.ofNat n), x < 16 := by decide +kernel
  refine ⟨?_, ?_, ?_⟩
  · apply hall c.toNat c.toNat_lt
    rwa [UInt8.ofNat_toNat]
  · rintro rfl
    cases h
  · rintro rfl
    cases h

/-- What stays of the text: the last three bytes, with one colon. -/
def MacText.tail (m : MacText) : List UInt8 := m.d.text ++ Ipv6Text.colon :: m.e.text ++ m.f.text

/-- The characters of the tail. -/
theorem MacText.tail_ne (m : MacText) : ∀ c ∈ m.tail, c ≠ 0 ∧ c ≠ percent := by
  have hbyte : ∀ h : HexByte, ∀ c ∈ h.text, c ≠ 0 ∧ c ≠ percent := by
    intro h c hc
    obtain ⟨x, y, hx, hy, -⟩ := h.digits
    simp only [HexByte.text, List.mem_cons, List.not_mem_nil, or_false] at hc
    rcases hc with rfl | rfl
    · exact (hexDigitValue_lt hx).2
    · exact (hexDigitValue_lt hy).2
  intro c hc
  simp only [MacText.tail, List.mem_append, List.mem_cons] at hc
  rcases hc with (hc | rfl | hc) | hc
  · exact hbyte _ c hc
  · decide
  · exact hbyte _ c hc
  · exact hbyte _ c hc

/-- The stores move two characters to the left, and end the string behind them. -/
theorem squeeze_apply (macbuf : Buf 128) (i : Fin 128) :
    squeeze macbuf i = if i.val = 14 then macbuf ⟨15, by omega⟩
      else if i.val = 15 then macbuf ⟨16, by omega⟩ else if i.val = 16 then 0 else macbuf i := by
  simp only [squeeze, Buf.copy_singleton_apply]
  split_ifs <;> first | rfl | omega

/-- **The edits.**  Behind a front of nine characters, `macbuf` holds the tail, whatever was on the
    stack and whatever follows the address in the file. -/
theorem macString_squeeze (stale : Buf 128) (m : MacText) (rest : List UInt8) :
    macString (squeeze (readMac stale (m.text ++ rest))) 9 = m.tail := by
  generalize hbuf : readMac stale (m.text ++ rest) = macbuf
  have hread (i : ℕ) (hi : i < 128) :
      macbuf ⟨i, hi⟩ = ((m.text ++ rest).take 128).getD i (stale ⟨i, hi⟩) := by
    rw [← hbuf, readMac, Buf.copy]
    by_cases hlt : i < ((m.text ++ rest).take 128).length
    · rw [dif_pos ⟨Nat.zero_le _, hlt⟩]
      exact (List.getD_eq_getElem _ _ hlt).symm
    · rw [dif_neg fun h => hlt h.2, List.getD_eq_default _ _ (Nat.le_of_not_lt hlt)]
  -- the seven characters of the tail, and the end of the string
  have hfront : ((squeeze macbuf).front 128).drop 9
      = m.tail ++ 0 :: ((squeeze macbuf).front 128).drop 17 := by
    have hlen : ((squeeze macbuf).front 128).length = 128 := Buf.length_front _ _
    rw [List.drop_eq_getElem_cons (by omega), List.drop_eq_getElem_cons (by omega),
      List.drop_eq_getElem_cons (by omega), List.drop_eq_getElem_cons (by omega),
      List.drop_eq_getElem_cons (by omega), List.drop_eq_getElem_cons (by omega),
      List.drop_eq_getElem_cons (by omega), List.drop_eq_getElem_cons (by omega)]
    simp only [Buf.getElem_front, squeeze_apply]
    simp [hread, MacText.text, HexByte.text, MacText.tail]
  rw [macString, hfront, List.takeWhile_append_of_pos, List.takeWhile_cons_of_neg (by simp),
    List.append_nil]
  intro c hc
  simpa using (m.tail_ne c hc).1

/-! ### The address -/

/-- The front of the text, scanned: three groups, and two digits of a fourth. -/
def frontScan : Scan := ⟨[0xfe, 0x80, 0xc2, 0x98, 0xe5, 0xff], some 2, 2, 0xfe⟩

/-- The tail, scanned: its first byte ends the fourth group, the others are the last one. -/
theorem scan_tail (m : MacText) (curtok : List UInt8) :
    ∃ v, scan frontScan curtok m.tail
      = some ⟨[0xfe, 0x80, 0xc2, 0x98, 0xe5, 0xff, 0xfe, m.d.value], some 2, 4, v⟩ ∧
      UInt8.ofNat (v / 256) = m.e.value ∧ UInt8.ofNat (v % 256) = m.f.value := by
  obtain ⟨x₁, y₁, hx₁, hy₁, hd⟩ := m.d.digits
  obtain ⟨x₂, y₂, hx₂, hy₂, he⟩ := m.e.digits
  obtain ⟨x₃, y₃, hx₃, hy₃, hf⟩ := m.f.digits
  have hlt₁ := (hexDigitValue_lt hx₁).1
  have hlt₂ := (hexDigitValue_lt hy₁).1
  have hlt₃ := (hexDigitValue_lt hx₃).1
  have hlt₄ := (hexDigitValue_lt hy₃).1
  refine ⟨(((0 * 16 + x₂) * 16 + y₂) * 16 + x₃) * 16 + y₃, ?_, ?_, ?_⟩
  · have hhigh : UInt8.ofNat (((0xfe * 16 + x₁) * 16 + y₁) / 256) = 0xfe := by
      rw [show ((0xfe * 16 + x₁) * 16 + y₁) / 256 = 0xfe by omega]
      rfl
    have hlow : UInt8.ofNat (((0xfe * 16 + x₁) * 16 + y₁) % 256) = m.d.value := by
      rw [show ((0xfe * 16 + x₁) * 16 + y₁) % 256 = 16 * x₁ + y₁ by omega, hd]
    have hgroup : ((frontScan.digit x₁).digit y₁).group
        = ⟨[0xfe, 0x80, 0xc2, 0x98, 0xe5, 0xff, 0xfe, m.d.value], some 2, 0, 0⟩ := by
      show Scan.mk (frontScan.tmp ++ [UInt8.ofNat (((0xfe * 16 + x₁) * 16 + y₁) / 256),
        UInt8.ofNat (((0xfe * 16 + x₁) * 16 + y₁) % 256)]) (some 2) 0 0 = _
      rw [hhigh, hlow]
      rfl
    have hbegun : ((frontScan.digit x₁).digit y₁).seen ≠ 0 := Nat.succ_ne_zero _
    have hroom : ((frontScan.digit x₁).digit y₁).tmp.length + 2 ≤ 16 := Nat.le_add_left 8 8
    rw [MacText.tail, HexByte.text, HexByte.text, HexByte.text]
    simp only [List.cons_append, List.nil_append]
    rw [scan_two hx₁ hy₁ (Nat.le_refl 4), scan_group hbegun hroom (List.cons_ne_nil _ _), hgroup,
      scan_two hx₂ hy₂ (Nat.le_add_left 2 2), scan_two hx₃ hy₃ (Nat.le_refl 4), scan]
    rfl
  · rw [he]
    congr 1
    omega
  · rw [hf]
    congr 1
    omega

/-- **The text as an address.** -/
theorem inetPton6_tail (m : MacText) :
    inetPton6 (ascii "fe80::c298:e5ff:fe" ++ m.tail) = some m.addr := by
  have hleading : leading (ascii "fe80::c298:e5ff:fe") = some (ascii "fe80::c298:e5ff:fe") := rfl
  have hfront : scan .start (ascii "fe80::c298:e5ff:fe") (ascii "fe80::c298:e5ff:fe")
      = some frontScan := rfl
  obtain ⟨curtok, happend⟩ := scan_append hfront (by decide)
    (ascii "fe80::c298:e5ff:fe" ++ m.tail) m.tail
  obtain ⟨v, hscan, he, hf⟩ := scan_tail m curtok
  have hfinish : finish ⟨[0xfe, 0x80, 0xc2, 0x98, 0xe5, 0xff, 0xfe, m.d.value], some 2, 4, v⟩
      = some [0xfe, 0x80, 0, 0, 0, 0, 0, 0, 0xc2, 0x98, 0xe5, 0xff, 0xfe, m.d.value, m.e.value,
        m.f.value] := by
    rw [← he, ← hf]
    rfl
  rw [inetPton6, leading_append hleading, Option.bind_eq_bind, Option.bind_some, happend, hscan,
    Option.bind_eq_bind, Option.bind_some, hfinish]
  rfl

/-- The address tells MAC addresses apart by their last three bytes, and by no others. -/
theorem gatewayAddr_inj {d e f d' e' f' : UInt8} :
    gatewayAddr d e f = gatewayAddr d' e' f' ↔ d = d' ∧ e = e' ∧ f = f' := by
  constructor
  · intro h
    exact ⟨congrFun h 13, congrFun h 14, congrFun h 15⟩
  · rintro ⟨rfl, rfl, rfl⟩
    rfl

theorem isLinkLocal_addr (m : MacText) : m.addr.isLinkLocal = true := rfl

/-- What a command assigns is in its text. -/
theorem Assigns.unique {command : List UInt8} {a a' : In6Addr} (h : Assigns command a)
    (h' : Assigns command a') : a = a' := by
  obtain ⟨text, rfl, ha⟩ := h
  obtain ⟨text', heq, ha'⟩ := h'
  obtain rfl : text = text' := List.append_cancel_left (List.append_cancel_right heq)
  exact Option.some.inj (ha.symm.trans ha')

/-- The command is short enough for both buffers, and has no conversion in it. -/
theorem lladdrCommand_text (stale : Buf 128) (m : MacText) (rest : List UInt8) :
    lladdrCommand stale (m.text ++ rest)
      = some (ascii "ifconfig " ++ ifrName ++ ascii " add " ++
          (ascii "fe80::c298:e5ff:fe" ++ m.tail) ++ ascii "/64") := by
  have hadd : ascii " add fe80::c298:e5ff:fe" = ascii " add " ++ ascii "fe80::c298:e5ff:fe" := rfl
  have hlen : (ascii "ifconfig " ++ ifrName ++ ascii " add fe80::c298:e5ff:fe" ++ m.tail ++
      ascii "/64").length = 52 := rfl
  have hpercent : percent ∉ ascii "ifconfig " ++ ifrName ++ ascii " add fe80::c298:e5ff:fe" ++
      m.tail ++ ascii "/64" := by
    simp only [List.mem_append, not_or]
    refine ⟨⟨⟨⟨by decide, by decide⟩, by decide⟩, fun hmem => ?_⟩, by decide⟩
    exact (m.tail_ne _ hmem).2 rfl
  rw [lladdrCommand, cmdLladdr, macString_squeeze, List.take_of_length_le (by omega), ssystem,
    if_neg hpercent, List.take_of_length_le (by omega), hadd]
  simp only [List.append_assoc]

/-- The command assigns the address of the gateway. -/
theorem exists_command (stale : Buf 128) (m : MacText) (rest : List UInt8) :
    ∃ command, lladdrCommand stale (m.text ++ rest) = some command ∧ Assigns command m.addr :=
  ⟨_, lladdrCommand_text stale m rest, _, rfl, inetPton6_tail m⟩

/-- **The address of a gateway.**  Whatever the stack held and whatever follows the MAC address in
    its file, with digits of either case, the client hands one complete command to the shell, and
    this assigns a link-local address, `fe80::c298:e5ff:fe` and the last three bytes of the MAC
    address; two gateways assign the same address exactly if these three bytes agree. -/
theorem gateway_address (stale stale' : Buf 128) (m m' : MacText) (rest rest' : List UInt8) :
    ∃ command command', lladdrCommand stale (m.text ++ rest) = some command ∧
      lladdrCommand stale' (m'.text ++ rest') = some command' ∧ Assigns command m.addr ∧
      m.addr.isLinkLocal = true ∧
      ∀ a a', Assigns command a → Assigns command' a' →
        (a = a' ↔ m.d.value = m'.d.value ∧ m.e.value = m'.e.value ∧ m.f.value = m'.f.value) := by
  obtain ⟨command, hcommand, hassigns⟩ := exists_command stale m rest
  obtain ⟨command', hcommand', hassigns'⟩ := exists_command stale' m' rest'
  refine ⟨command, command', hcommand, hcommand', hassigns, isLinkLocal_addr m,
    fun a a' ha ha' => ?_⟩
  obtain rfl := ha.unique hassigns
  obtain rfl := ha'.unique hassigns'
  exact gatewayAddr_inj

/-! ### Gateways in the network -/

section Network

variable {κ : Type*} [DecidableEq κ] {cfg : Config} {ccfg : κ → ClientConfig} {addr : κ → In6Addr}
  {plan : In6Addr → In6Addr → Prop}

/-- The last eight bytes tell the addresses apart. -/
theorem eq_of_agree {m m' : MacText} {dst : In6Addr} (h : dst.agree m.addr 8 8 = true)
    (h' : dst.agree m'.addr 8 8 = true) :
    m.d.value = m'.d.value ∧ m.e.value = m'.e.value ∧ m.f.value = m'.f.value := by
  rw [In6Addr.agree, decide_eq_true_eq] at h h'
  have hsame (i : Fin 16) (hle : 8 ≤ i.val) : m.addr i = m'.addr i :=
    (h i hle (by omega)).symm.trans (h' i hle (by omega))
  exact ⟨hsame 13 (by decide), hsame 14 (by decide), hsame 15 (by decide)⟩

/-- **Packets go to their gateway only.**  Let each client have the address that its command
    assigns, from MAC addresses that differ in the last three bytes, and let no two addresses have
    blocks planned that overlap.  Then in every run as in `packets_belong`, a packet that belongs to
    a client is written to connections of this client only. -/
theorem packets_to_their_gateway_only (mac : κ → MacText) (stale : κ → Buf 128)
    (rest : κ → List UInt8)
    (haddr : ∀ i, ∃ command, lladdrCommand (stale i) ((mac i).text ++ rest i) = some command ∧
      Assigns command (addr i))
    (hmac : ∀ i j, (mac i).d.value = (mac j).d.value → (mac i).e.value = (mac j).e.value →
      (mac i).f.value = (mac j).f.value → i = j)
    (hplan : ∀ a a' block block' dst, plan a block → plan a' block' → covers block dst = true →
      covers block' dst = true → a = a')
    (xs : List (NetInput κ)) (n : Network κ) (o : List (Call κ))
    (halong : (network cfg ccfg).Along
      (fun n o x => KeepsTun cfg n x ∧ Genuine cfg ccfg addr plan n o x) xs)
    (hrun : (network cfg ccfg).run xs = some (n, o)) (src : Option File) (fd c : ℕ)
    (bytes : List UInt8) (hw : .wrote src fd (some (.conn c)) bytes ∈ serverOf o) (i : κ)
    (hbelongs : Belongs cfg plan (addr i) bytes) : ∃ k, n.wires.accepted[c]? = some (i, k) := by
  have hown (i : κ) : addr i = (mac i).addr := by
    obtain ⟨command, hcommand, hassigns⟩ := haddr i
    obtain ⟨command', hcommand', hassigns'⟩ := exists_command (stale i) (mac i) (rest i)
    obtain rfl := Option.some.inj (hcommand.symm.trans hcommand')
    exact hassigns.unique hassigns'
  obtain ⟨j, k, hget, hj⟩ := (placed_of_run xs n o halong hrun).wrote src fd c bytes hw
  suffices hij : i = j from ⟨k, hij ▸ hget⟩
  unfold Belongs at hbelongs hj
  split at hbelongs
  · next h52 =>
    rw [if_pos h52] at hj
    obtain ⟨block, hblock, hcovers⟩ := hbelongs
    obtain ⟨block', hblock', hcovers'⟩ := hj
    have hsame := hplan _ _ _ _ _ hblock hblock' hcovers hcovers'
    rw [hown, hown] at hsame
    obtain ⟨hd, he, hf⟩ := gatewayAddr_inj.mp hsame
    exact hmac i j hd he hf
  · next h52 =>
    rw [if_neg h52] at hj
    rw [hown] at hbelongs hj
    obtain ⟨hd, he, hf⟩ := eq_of_agree hbelongs hj
    exact hmac i j hd he hf

end Network

/-- Two gateways, `c0:98:e5:c0:00:01` and `c0:98:e5:c0:00:02`. -/
def gatewayMac (i : Bool) : MacText where
  a := ⟨99, 48, 0xc0, by decide⟩
  b := ⟨57, 56, 0x98, by decide⟩
  c := ⟨101, 53, 0xe5, by decide⟩
  d := ⟨67, 48, 0xc0, by decide⟩
  e := ⟨48, 48, 0, by decide⟩
  f := if i then ⟨48, 49, 1, by decide⟩ else ⟨48, 50, 2, by decide⟩

/-- A packet from a gateway, to a multicast address. -/
def gatewayHello (i : Bool) : List UInt8 := packetOf (gatewayMac i).addr (addrOf [0xff, 2])

/-- Both gateways connect and present their addresses; then a packet for the second one arrives. -/
def twoGateways : List (NetInput Bool) :=
  clientTakes true (connectsTo 4 ++ sends [gatewayHello true]) ++
    clientTakes false (connectsTo 4 ++ sends [gatewayHello false]) ++
    serverTakes .again (connects 7 ++ connects 8 ++ delivers 7 [gatewayHello true] ++
      delivers 8 [gatewayHello false]) ++
    serverTakes (.took 40) (delivers 3 [packetOf (linkLocal 9) (gatewayMac false).addr])

/-- `packets_to_their_gateway_only` for that packet, which is written to the second connection. -/
theorem packets_to_their_gateway_only_two :
    ∃ n o, networkOfTwo.run twoGateways = some (n, o) ∧
      .wrote (some .tun) 8 (some (.conn 1)) (packetOf (linkLocal 9) (gatewayMac false).addr) ∈
        serverOf o ∧
      ∃ k, n.wires.accepted[1]? = some (false, k) := by
  obtain ⟨n, o, hrun, hwrote⟩ : ∃ n o, networkOfTwo.run twoGateways = some (n, o) ∧
      .wrote (some .tun) 8 (some (.conn 1)) (packetOf (linkLocal 9) (gatewayMac false).addr) ∈
        serverOf o :=
    networkOfTwo.exists_run (P := fun _ o => .wrote (some .tun) 8 (some (.conn 1))
      (packetOf (linkLocal 9) (gatewayMac false).addr) ∈ serverOf o) (by decide +kernel)
  have halong : networkOfTwo.Along (fun n o x => KeepsTun Config.sample n x ∧
      Genuine Config.sample (fun _ => ClientConfig.sample) (fun i => (gatewayMac i).addr)
        (fun _ _ => False) n o x) twoGateways :=
    Machine.along_of_alongFrom (by decide +kernel)
  have hbelongs : Belongs Config.sample (fun _ _ => False) (gatewayMac false).addr
      (packetOf (linkLocal 9) (gatewayMac false).addr) := by
    have h52 : ¬ Config.sample.inSlash52 (dstOf (packetOf (linkLocal 9) (gatewayMac false).addr))
        = true := by
      decide +kernel
    rw [Belongs, if_neg h52]
    decide +kernel
  exact ⟨n, o, hrun, hwrote, packets_to_their_gateway_only gatewayMac (fun _ _ => 0)
    (fun _ => [newline]) (fun i => exists_command _ _ _) (by decide) (fun _ _ _ _ _ h => h.elim)
    twoGateways n o halong hrun _ _ _ _ hwrote false hbelongs⟩

end Gap.Tunnel
