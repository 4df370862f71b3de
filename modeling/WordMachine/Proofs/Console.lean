import WordMachine.Proofs.Encoding
import WordMachine.Proofs.Image
import WordMachine.Proofs.Trapping

/-!
# Lines that come back

`int 0` reads a line into the memory and `int 1` writes a text from there.  Prompts and texts are
the strings at an address: the bytes up to a zero byte or the end of the memory
(`Memory.stringAt`).  A line is stored with a zero byte behind it (`Memory.Stored`).  So if it has no
zero byte itself, it is the string at its address, and writing it shows what has been read, as long
as its bytes are left alone (`Machine.Shows`).

`Machine.readLine_echo` says this of every machine with a plain memory and of every line that fits.
-/

namespace WordMachine

open Text

/-- The address that a word states is its value, if it is not negative. -/
theorem Word.toNat_bits_of_toInt {w : Word} {n : Nat} (hvalue : w.toInt = n) :
    (bits w).toNat = n := by
  have hlt := w.toInt_lt
  rw [eq_ofCount_of_toInt hvalue, toNat_bits_ofCount (by omega)]

namespace Memory

variable {m m' : Memory} {address : UInt32} {bytes text : List UInt8} {v : UInt8} {i k : Nat}

/-- A memory that announces its real size and has no addresses above the positive words. -/
structure Plain (m : Memory) : Prop where
  announced_eq : m.announced = m.size
  size_le : m.size ≤ 0x80000000

/-! ## Storing bytes -/

/-- Some bytes have been written at an address, and all others are as they were. -/
structure Stored (m : Memory) (address : Nat) (bytes : List UInt8) (m' : Memory) : Prop where
  size_eq : m'.size = m.size
  announced_eq : m'.announced = m.announced
  inside : ∀ j v, bytes[j]? = some v → m'.byteAt (address + j) = v
  outside : ∀ j, j < address ∨ address + bytes.length ≤ j → m'.byteAt j = m.byteAt j

theorem Stored.nil (m : Memory) (k : Nat) : m.Stored k [] m := by
  refine ⟨rfl, rfl, fun j v hj => ?_, fun _ _ => rfl⟩
  cases hj

theorem Stored.cons (hin : k < m.size) (hrest : (m.setByte k v).Stored (k + 1) bytes m') :
    m.Stored k (v :: bytes) m' := by
  obtain ⟨hsize, hannounced, hinside, houtside⟩ := hrest
  refine ⟨by rw [hsize, size_setByte], hannounced, fun j w hj => ?_, fun j hj => ?_⟩
  · cases j with
    | zero =>
        cases hj
        rw [houtside _ (by omega), byteAt_setByte, if_pos ⟨rfl, hin⟩]
    | succ j => rw [← hinside j w hj, Nat.add_assoc, Nat.add_comm 1]
  · rw [List.length_cons] at hj
    rw [houtside j (by omega), byteAt_setByte, if_neg (by omega)]

/-- Bytes that fit into the memory are written, all of them. -/
theorem exists_writeBytes_of_fits (hin : address.toNat + bytes.length ≤ m.size)
    (hsmall : address.toNat + bytes.length < 0x100000000) :
    ∃ m', writeBytes address bytes m = .ok () m' ∧ m.Stored address.toNat bytes m' := by
  induction bytes generalizing address m with
  | nil => exact ⟨m, rfl, .nil m _⟩
  | cons v rest ih =>
      rw [List.length_cons] at hin hsmall
      have hnext : (address + 1).toNat = address.toNat + 1 := by
        rw [UInt32.toNat_add]
        exact Nat.mod_eq_of_lt (by simp; omega)
      have hroom : (address + 1).toNat + rest.length ≤ (m.setByte address.toNat v).size := by
        rw [hnext, size_setByte]
        omega
      obtain ⟨m', hwrite, hstored⟩ := ih hroom (by omega)
      rw [hnext] at hstored
      refine ⟨m', ?_, .cons (by omega) hstored⟩
      rw [writeBytes_cons_of_lt v rest (by omega), hwrite]

/-! ## Strings -/

/-- The bytes from a position up to a zero byte or the end of the memory. -/
def stringAt (m : Memory) (i : Nat) : List UInt8 := (m.bytes.toList.drop i).takeWhile (· != 0)

theorem stringAt_of_le (hle : m.size ≤ i) : m.stringAt i = [] := by
  rw [stringAt, List.drop_eq_nil_of_le (by simpa [size] using hle), List.takeWhile_nil]

theorem stringAt_of_lt (hlt : i < m.size) :
    m.stringAt i = if m.byteAt i = 0 then [] else m.byteAt i :: m.stringAt (i + 1) := by
  have hlength : i < m.bytes.toList.length := by rwa [Array.length_toList]
  have hbyte : m.byteAt i = m.bytes.toList[i] := by
    rw [byteAt, ← Array.getElem?_toList, List.getElem?_eq_getElem hlength, Option.getD_some]
  rw [stringAt, List.drop_eq_getElem_cons hlength, ← hbyte, List.takeWhile_cons]
  by_cases hzero : m.byteAt i = 0
  · simp [hzero]
  · simp [hzero, stringAt]

/-- Inside a plain memory a position is its own address. -/
theorem readByte_of_plain (hplain : m.Plain) (hlt : i < m.size) :
    m.readByte (UInt32.ofNat i) = .ok (m.byteAt i) := by
  have hsize := hplain.size_le
  have htoNat : (UInt32.ofNat i).toNat = i := UInt32.toNat_ofNat_of_lt' (by omega : i < 0x100000000)
  rw [readByte_of_holds (holds_iff.mpr (by rwa [htoNat])), htoNat]

theorem stringFrom_eq_stringAt (hplain : m.Plain) (i : Nat) (rev : List UInt8) :
    m.stringFrom i rev = .ok (rev.reverse ++ m.stringAt i) := by
  have hannounced := hplain.announced_eq
  fun_induction stringFrom m i rev with
  | case1 i rev hlt e hread =>
      rw [readByte_of_plain hplain (hannounced ▸ hlt)] at hread
      cases hread
  | case2 i rev hlt hread =>
      rw [readByte_of_plain hplain (hannounced ▸ hlt), Except.ok.injEq] at hread
      rw [stringAt_of_lt (hannounced ▸ hlt), if_pos hread, List.append_nil]
  | case3 i rev hlt v hread hzero ih =>
      rw [readByte_of_plain hplain (hannounced ▸ hlt), Except.ok.injEq] at hread
      rw [stringAt_of_lt (i := i) (hannounced ▸ hlt), hread, if_neg hzero, ih, List.reverse_cons,
        List.append_assoc, List.singleton_append]
  | case4 i rev hge => rw [stringAt_of_le (by omega), List.append_nil]

/-- The string at an address inside a plain memory can be read. -/
theorem readString_eq_stringAt (hplain : m.Plain) (hin : address.toNat < m.size) :
    m.readString address = .ok (m.stringAt address.toNat) := by
  rw [readString, if_pos (hplain.announced_eq ▸ hin), stringFrom_eq_stringAt hplain]
  rfl

/-- A text without zero bytes that stands before a zero byte is the string at its position. -/
theorem stringAt_of_inside (hzero : 0 ∉ text) (hin : k + text.length < m.size)
    (hinside : ∀ j v, (text ++ [0])[j]? = some v → m.byteAt (k + j) = v) : m.stringAt k = text := by
  induction text generalizing k with
  | nil =>
      have hfirst : m.byteAt k = 0 := hinside 0 0 rfl
      rw [stringAt_of_lt (by simpa using hin), if_pos hfirst]
  | cons v text ih =>
      rw [List.mem_cons, not_or] at hzero
      rw [List.length_cons] at hin
      have hfirst : m.byteAt k = v := hinside 0 v rfl
      have hrest : m.stringAt (k + 1) = text := ih hzero.2 (by omega) fun j w hj => by
        rw [Nat.add_assoc, Nat.add_comm 1]
        exact hinside (j + 1) w hj
      rw [stringAt_of_lt (by omega), hfirst, if_neg (Ne.symm hzero.1), hrest]

end Memory

/-! ## Reading and writing a line -/

namespace Machine

variable {σ : Type} {host : Host σ} {p : Program} {m m' : Machine} {d : Instruction} {s : σ}
  {line : String} {a k : Nat}

/-- The instruction at the pointer asks for the service with a number. -/
structure AsksFor (p : Program) (m : Machine) (d : Instruction) (id : Word) : Prop where
  fetch : fetch p m = .ok d
  op : d.op = .interrupt
  first : d.first = id

/-- The machine has read a line to an address. -/
structure HasRead (m : Machine) (k : Nat) (line : String) (m' : Machine) : Prop where
  memory : m.memory.Stored k (Utf8.encode line ++ [0]) m'.memory
  length : m'.cpu.registers.r1.toInt = (Utf8.encode line).length
  registers : ∀ r, r ≠ .r1 → r ≠ .rip → m'.cpu.registers.get r = m.cpu.registers.get r

/-- As long as the bytes of a line and the one behind them are those of the given memory, whatever
else has happened, a step that writes the text at their address has the host show the line. -/
def Shows (memory : Memory) (k : Nat) (line : String) : Prop :=
  ∀ p m d, AsksFor p m d 1 → m.memory.Plain → m.memory.size = memory.size →
    m.cpu.registers.r1.toInt = k →
    (∀ j, k ≤ j → j ≤ k + (Utf8.encode line).length → m.memory.byteAt j = memory.byteAt j) →
    begin p m = .waiting (.writeLine line) (m.enter d)

/-- The text at the address in `r1`. -/
theorem stringArgument_of_plain (hplain : m.memory.Plain)
    (haddress : m.cpu.registers.r1.toInt = a) (hin : a < m.memory.size) :
    stringArgument m = .ok (Utf8.decodeLossy (m.memory.stringAt a)) m := by
  have htoNat := Word.toNat_bits_of_toInt haddress
  rw [stringArgument_eq, Memory.readString_eq_stringAt hplain (by omega), htoNat]

/-- A step that asks for a service with a text waits for the answer to a call with the string at the
address in `r1`. -/
theorem AsksFor.begin_of_text {id : Word} {service : Service} (hasks : AsksFor p m d id)
    (hservice : Service.ofId? id = some service) (call : String → HostCall)
    (hrequest : request service = do return some (call (← stringArgument)))
    (hplain : m.memory.Plain) (haddress : m.cpu.registers.r1.toInt = a)
    (hin : a < m.memory.size) :
    begin p m = .waiting (call (Utf8.decodeLossy (m.memory.stringAt a))) (m.enter d) := by
  have hargument := stringArgument_of_plain (m := m.enter d) hplain haddress hin
  have hexecute : execute d (m.enter d) =
      .ok (some (call (Utf8.decodeLossy (m.memory.stringAt a)))) (m.enter d) := by
    simp only [execute, hasks.op, hasks.first, hservice, hrequest]
    exact bind_eq_ok_iff.mpr ⟨_, _, hargument, rfl⟩
  simp only [begin, hasks.fetch, hexecute]

/-- A line that fits is stored. -/
theorem exists_storeLine_of_fits (hplain : m.memory.Plain)
    (hdestination : m.cpu.registers.r2.toInt = k)
    (hfits : k + (Utf8.encode line).length + 1 ≤ m.memory.size) :
    ∃ m', storeLine line m = .ok () m' ∧ m.HasRead k line m' := by
  have hsize := hplain.size_le
  have htoNat := Word.toNat_bits_of_toInt hdestination
  have hin : (Word.bits m.cpu.registers.r2).toNat + (Utf8.encode line ++ [0]).length ≤
      m.memory.size := by
    rw [htoNat, List.length_append, List.length_singleton]
    omega
  obtain ⟨memory, hwrite, hstored⟩ := Memory.exists_writeBytes_of_fits hin (by omega)
  rw [htoNat] at hstored
  refine ⟨_, bind_eq_ok_iff.mpr ⟨m, m, rfl, bind_eq_ok_iff.mpr
    ⟨(), _, writeMemory_of_ok hwrite, rfl⟩⟩, hstored, ?_, fun r hr _ => ?_⟩
  · exact Word.toInt_ofCount (by omega)
  · exact Registers.get_set_of_ne _ hr _

/-- Entering an instruction and leaving it move the pointer only. -/
theorem HasRead.leave (hread : (m.enter d).HasRead k line m') : m.HasRead k line m'.leave := by
  obtain ⟨hmemory, hlength, hregisters⟩ := hread
  refine ⟨hmemory, hlength, fun r hr hrip => ?_⟩
  have hsame := hregisters r hr hrip
  cases r <;> first | exact hsame | exact absurd rfl hrip

/-- A line without the character 0 is found where it has been stored. -/
theorem HasRead.shows (hread : m.HasRead k line m') (hline : '\x00' ∉ line.toList)
    (hfits : k + (Utf8.encode line).length + 1 ≤ m.memory.size) : Shows m'.memory k line := by
  intro p n d hasks hplain hsize haddress hsame
  rw [hread.memory.size_eq] at hsize
  have hstring : n.memory.stringAt k = Utf8.encode line := by
    refine Memory.stringAt_of_inside (Utf8.zero_notMem_encode hline) (by omega) fun j v hj => ?_
    have hlt := (List.getElem?_eq_some_iff.mp hj).1
    rw [List.length_append, List.length_singleton] at hlt
    rw [hsame _ (by omega) (by omega)]
    exact hread.memory.inside j v hj
  rw [hasks.begin_of_text rfl .writeLine rfl hplain haddress (by omega), hstring,
    Utf8.decodeLossy_encode]

/-- Reading a line prompts with the string at `r1`.  If the line fits behind the address in `r2`, it
is stored there, and from then on it can be shown again, unless the character 0 is in it. -/
theorem readLine_echo (hasks : AsksFor p m d 0) (hplain : m.memory.Plain)
    (hprompt : m.cpu.registers.r1.toInt = a) (hin : a < m.memory.size)
    (hdestination : m.cpu.registers.r2.toInt = k) :
    begin p m = .waiting (.readLine (Utf8.decodeLossy (m.memory.stringAt a))) (m.enter d) ∧
      ∀ (line : String) (s' : σ),
        host (.readLine (Utf8.decodeLossy (m.memory.stringAt a))) s = (.ok line, s') →
        k + (Utf8.encode line).length + 1 ≤ m.memory.size →
        ∃ m', step host p m s = ((m', s'), none) ∧ m.HasRead k line m' ∧
          ('\x00' ∉ line.toList → Shows m'.memory k line) := by
  have hbegin := hasks.begin_of_text rfl .readLine rfl hplain hprompt hin
  refine ⟨hbegin, fun line s' hanswer hfits => ?_⟩
  obtain ⟨m₁, hstore, hread⟩ := exists_storeLine_of_fits (m := m.enter d) hplain hdestination hfits
  refine ⟨m₁.leave, ?_, hread.leave, fun hline => hread.leave.shows hline hfits⟩
  simp only [step, hbegin, hanswer, resume, receive, accept, hstore]

/-- After the prompt `>` a line is read that fills the memory to its end, and another machine with
this memory shows it. -/
theorem readLine_echo_of_last_bytes :
    ∃ m', step ScriptedHost.answer ⟨#[80, 0]⟩
          { cpu := { Cpu.new {} with registers := { r2 := 5 } }
            memory := { bytes := #[62, 0, 1, 1, 1, 1, 1, 1] } }
          { input := ["hi"] } = ((m', { prompts := [">"] }), none) ∧
      m'.cpu.registers.r1.toInt = 2 ∧ m'.memory.byteAt 4 = 1 ∧ m'.memory.byteAt 7 = 0 ∧
      begin ⟨#[80, 1]⟩
          { cpu := { Cpu.new {} with registers := { r1 := 5 } }, memory := m'.memory } =
        .waiting (.writeLine "hi")
          (enter { cpu := { Cpu.new {} with registers := { r1 := 5 } }, memory := m'.memory }
            { op := .interrupt, position := 0, first := 1 }) := by
  have hanswer : ScriptedHost.answer (.readLine ">") { input := ["hi"] } =
      (.ok "hi", { prompts := [">"] }) := rfl
  have hprompt : Utf8.decodeLossy
      (Memory.stringAt { bytes := #[62, 0, 1, 1, 1, 1, 1, 1] } 0) = ">" := by
    with_unfolding_all rfl
  obtain ⟨-, hlines⟩ := @readLine_echo _ ScriptedHost.answer ⟨#[80, 0]⟩
    { cpu := { Cpu.new {} with registers := { r2 := 5 } }
      memory := { bytes := #[62, 0, 1, 1, 1, 1, 1, 1] } }
    { op := .interrupt, position := 0 } { input := ["hi"] } 0 5
    ⟨rfl, rfl, rfl⟩ ⟨rfl, by decide⟩ rfl (by decide) rfl
  obtain ⟨m', hstep, hread, hshows⟩ := hlines "hi" _ (by rw [hprompt]; exact hanswer) (by decide)
  refine ⟨m', hstep, hread.length, hread.memory.outside 4 (by decide),
    hread.memory.inside 2 0 (by decide), ?_⟩
  have hsize : m'.memory.size = 8 := hread.memory.size_eq
  have hannounced : m'.memory.announced = 8 := hread.memory.announced_eq
  have hplain : m'.memory.Plain := ⟨hannounced.trans hsize.symm, by rw [hsize]; decide⟩
  exact hshows (by decide) _ _ _ ⟨rfl, rfl, rfl⟩ hplain rfl rfl fun j _ _ => rfl

end Machine

end WordMachine
