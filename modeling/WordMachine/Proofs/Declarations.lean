import WordMachine.Host.Scripted
import WordMachine.Proofs.DirectiveLines
import WordMachine.Proofs.Encoding
import WordMachine.Proofs.Image
import WordMachine.Proofs.Lines

/-!
# The memory that directives describe

A source that consists of directives describes a memory: the variables one after the other from
address 0 on, and zeros behind them.  The code that is assembled for it stores the variables, and a
run of the code ends with the memory that the source describes.

* `Laid`: the assembler after lines that declare some variables.  Its code stores them.
* `run_of_directives`: a run of the code.  The code must not be longer than the pointer can count.
* `trapped_of_directives`: what becomes of a run if the code is longer.
-/

namespace WordMachine.Assembly

open WordMachine.Text

/-- The bytes of some variables, one variable after the other. -/
def image (bs : List Block) : List UInt8 := bs.flatMap fun b => b.contents.image

/-! ## The stores of a value -/

/-- A byte comes back from the sign extension of it. -/
theorem bits_signedByte (b : UInt8) : (Word.bits (signedByte b)).toUInt8 = b := by
  refine UInt8.toBitVec_inj.mp (BitVec.eq_of_getLsbD_eq fun i hi => ?_)
  have hlt : i < 32 := by omega
  simp [signedByte, Word.bits, BitVec.getElem_signExtend, hi, hlt]

theorem toInt_signedByte_le (b : UInt8) : (signedByte b).toInt ≤ 127 := by
  rw [signedByte, Int8.toInt_toInt32]
  exact Int8.toInt_le _

namespace Contents

/-- The stores that write a value to memory from an address on.  The zero byte behind a text is not
stored. -/
def stores (start : Nat) : Contents → List Store
  | .dword value => [⟨.word, Word.ofCount start, value⟩]
  | .bytes values => Store.bytesFrom start values
  | .string text => Store.bytesFrom start ((text.flatMap String.utf8EncodeChar).map signedByte)

/-- How many stores write a value. -/
def storeCount : Contents → Nat
  | .dword _ => 1
  | .bytes values => values.length
  | .string text => (text.flatMap String.utf8EncodeChar).length

/-- Whether the stores of a value are not refused: no byte that is listed may be above 127. -/
def Storable (c : Contents) : Prop := ∀ values, c = .bytes values → ∀ v ∈ values, v.toInt ≤ 127

variable {c : Contents} {start size : Nat} {m : Memory} {bytes : List UInt8}

theorem length_stores (start : Nat) (c : Contents) : (c.stores start).length = c.storeCount := by
  cases c with
  | dword value => rfl
  | bytes values => exact Store.length_bytesFrom ..
  | string text => rw [stores, Store.length_bytesFrom, List.length_map, storeCount]

theorem fits_of_mem_stores (hc : c.Storable) (hroom : start + c.image.length ≤ size)
    (hsmall : start + c.image.length < 0x80000000) : ∀ w ∈ c.stores start, w.Fits size := by
  cases c with
  | dword value =>
      intro w hw
      obtain rfl := List.mem_singleton.mp hw
      change (Word.bits (Word.ofCount start)).toNat + 4 ≤ size
      rw [Word.toNat_bits_ofCount (by omega)]
      exact hroom
  | bytes values =>
      rw [image, List.length_map] at hroom hsmall
      exact Store.fits_of_mem_bytesFrom (hc values rfl) hroom hsmall
  | string text =>
      rw [image, List.length_append] at hroom hsmall
      refine Store.fits_of_mem_bytesFrom ?_ ?_ ?_
      · intro v hv
        obtain ⟨b, -, rfl⟩ := List.mem_map.mp hv
        exact toInt_signedByte_le b
      · rw [List.length_map]
        omega
      · rw [List.length_map]
        omega

/-- The stores of a value behind the bytes stored so far add its bytes to them. -/
theorem startsWith_foldl_stores (hm : m.StartsWith bytes)
    (hroom : bytes.length + c.image.length ≤ m.size)
    (hsmall : bytes.length + c.image.length < 0x80000000) :
    ((c.stores bytes.length).foldl Store.apply m).StartsWith (bytes ++ c.image) := by
  cases c with
  | dword value =>
      have happly : Store.apply m ⟨.word, Word.ofCount bytes.length, value⟩ =
          m.setWord bytes.length (Word.bits value) := by
        simp only [Store.apply, Word.toNat_bits_ofCount (by omega : bytes.length < 0x80000000)]
      rw [stores, List.foldl_cons, List.foldl_nil, happly]
      exact hm.setWord hroom _
  | bytes values =>
      rw [image, List.length_map] at hroom hsmall
      exact Store.startsWith_foldl_bytesFrom hm hroom hsmall
  | string text =>
      rw [image, List.length_append, List.length_singleton] at hroom hsmall
      rw [stores, image]
      generalize text.flatMap String.utf8EncodeChar = encoded at hroom hsmall ⊢
      have hlength : (encoded.map signedByte).length = encoded.length := List.length_map ..
      have hbytes : ((encoded.map signedByte).map fun v => (Word.bits v).toUInt8) = encoded := by
        rw [List.map_map]
        exact (List.map_congr_left fun b _ => bits_signedByte b).trans (List.map_id _)
      have hstored := Store.startsWith_foldl_bytesFrom hm
        (by rw [hlength]; omega : bytes.length + (encoded.map signedByte).length ≤ m.size)
        (by rw [hlength]; omega)
      rw [hbytes] at hstored
      have hpadded := hstored.zero (by rw [Store.size_foldl_apply, List.length_append]; omega)
      rwa [List.append_assoc] at hpadded

end Contents

/-! ## The stores of all variables -/

/-- The stores of some variables, the first of which begins at the given address. -/
def storesFrom (start : Nat) : List Block → List Store
  | [] => []
  | b :: bs => b.contents.stores start ++ storesFrom (start + b.contents.image.length) bs

/-- How many stores write some variables. -/
def storeCount : List Block → Nat
  | [] => 0
  | b :: bs => b.contents.storeCount + storeCount bs

variable {bs : List Block} {b : Block}

theorem length_storesFrom (start : Nat) (bs : List Block) :
    (storesFrom start bs).length = storeCount bs := by
  induction bs generalizing start with
  | nil => rfl
  | cons b bs ih =>
      rw [storesFrom, List.length_append, ih, Contents.length_stores, storeCount]

theorem length_image_cons (b : Block) (bs : List Block) :
    (image (b :: bs)).length = b.contents.image.length + (image bs).length := by
  rw [image, List.flatMap_cons, List.length_append]
  rfl

theorem storesFrom_concat (start : Nat) (bs : List Block) (b : Block) :
    storesFrom start (bs ++ [b]) =
      storesFrom start bs ++ b.contents.stores (start + (image bs).length) := by
  induction bs generalizing start with
  | nil => simp [storesFrom, image]
  | cons c bs ih =>
      rw [List.cons_append, storesFrom, storesFrom, ih, length_image_cons, List.append_assoc,
        Nat.add_assoc]

theorem fits_of_mem_storesFrom {start size : Nat} (hbs : ∀ b ∈ bs, b.contents.Storable)
    (hroom : start + (image bs).length ≤ size) (hsmall : start + (image bs).length < 0x80000000) :
    ∀ w ∈ storesFrom start bs, w.Fits size := by
  induction bs generalizing start with
  | nil =>
      intro w hw
      cases hw
  | cons b bs ih =>
      rw [length_image_cons] at hroom hsmall
      intro w hw
      rcases List.mem_append.mp hw with hw | hw
      · exact Contents.fits_of_mem_stores (hbs b (List.mem_cons_self ..)) (by omega) (by omega) w hw
      · exact ih (fun c hc => hbs c (List.mem_cons_of_mem _ hc)) (by omega) (by omega) w hw

/-- The stores of variables behind the bytes stored so far add the bytes of the variables. -/
theorem startsWith_foldl_storesFrom {m : Memory} {bytes : List UInt8} (hm : m.StartsWith bytes)
    (hroom : bytes.length + (image bs).length ≤ m.size)
    (hsmall : bytes.length + (image bs).length < 0x80000000) :
    ((storesFrom bytes.length bs).foldl Store.apply m).StartsWith (bytes ++ image bs) := by
  induction bs generalizing bytes m with
  | nil => simpa [storesFrom, image] using hm
  | cons b bs ih =>
      rw [length_image_cons] at hroom hsmall
      have hfirst := Contents.startsWith_foldl_stores hm
        (by omega : bytes.length + b.contents.image.length ≤ m.size) (by omega)
      have hrest := ih hfirst (by rw [Store.size_foldl_apply, List.length_append]; omega)
        (by rw [List.length_append]; omega)
      rw [List.length_append, List.append_assoc] at hrest
      rw [storesFrom, List.foldl_append]
      exact hrest

/-! ## Reading the lines -/

theorem byteStores_eq_code (start index : Nat) (values : List Word) :
    byteStores (Word.ofCount start) index values =
      Store.code (Store.bytesFrom (start + index) values) := by
  induction values generalizing index with
  | nil => rfl
  | cons v values ih =>
      rw [byteStores, ih, ← Word.ofCount_add, Store.bytesFrom, Store.code, Store.code,
        List.flatMap_cons, Nat.add_assoc]
      rfl

/-- What a line does that is blank or a directive without a fault, and the variable it declares. -/
inductive Declares (t : Symbols) : Option Block → Effect → Prop
  | skip : Declares t none .skip
  | define (name : String) (value : Word) : Declares t none (.define name value)
  | declare (b : Block) (hnew : t.hasVariable b.name = false) (hstorable : b.contents.Storable) :
      Declares t (some b) (.declare ⟨b.name, b.contents.image.length⟩
        (Store.code (b.contents.stores t.usedSpace)))

theorem mapM_literal?_of_byteItem {items : List (List Char)} {values : List Word}
    (hvalues : items.mapM byteItem = .ok values) :
    items.mapM literal? = some values ∧ ∀ v ∈ values, v.toInt ≤ 127 := by
  have hitems := forall₂_of_mapM hvalues
  clear hvalues
  induction hitems with
  | nil => simp
  | @cons item v items values hitem hrest ih =>
      unfold byteItem at hitem
      split at hitem
      · cases hitem
      · next v' hv =>
        split at hitem
        · next hrange =>
          cases hitem
          rw [List.mapM_cons, hv, ih.1]
          refine ⟨rfl, ?_⟩
          intro u hu
          rcases List.mem_cons.mp hu with rfl | hu
          · exact hrange.2
          · exact ih.2 u hu
        · cases hitem

/-- A directive that can be read declares the variable that its line shows. -/
theorem declares_of_read {t : Symbols} {d : Directive} {name : String} {value : List Char}
    {effect : Effect} (htaken : d.isTaken t name = false)
    (hread : d.read t name value = .ok effect) :
    Declares t ((d.contents? value).map (Block.mk name)) effect := by
  cases d with
  | const =>
      simp only [Directive.read] at hread
      split at hread <;> cases hread
      exact .define ..
  | dword =>
      simp only [Directive.read] at hread
      split at hread <;> cases hread
      next v hv =>
      rw [Directive.contents?, hv]
      refine .declare ⟨name, .dword v⟩ htaken ?_
      intro values hvalues
      cases hvalues
  | bytes =>
      simp only [Directive.read] at hread
      cases hitems : (dropBlankEnd (pieces (· == ',') value)).mapM byteItem with
      | error e => rw [hitems] at hread; cases hread
      | ok values =>
          rw [hitems] at hread
          cases hread
          obtain ⟨hliterals, hrange⟩ := mapM_literal?_of_byteItem hitems
          have hdeclares := Declares.declare (t := t) ⟨name, .bytes values⟩ htaken (by
            intro values' hvalues
            cases hvalues
            exact hrange)
          rw [Contents.image, List.length_map, Contents.stores] at hdeclares
          rw [Directive.contents?, hliterals]
          change Declares t _ (.declare _ (byteStores (Word.ofCount t.usedSpace) 0 values))
          rw [byteStores_eq_code]
          exact hdeclares
  | string =>
      simp only [Directive.read] at hread
      split at hread <;> cases hread
      next text htext =>
      have hdeclares := Declares.declare (t := t) ⟨name, .string text⟩ htaken (by
        intro values hvalues
        cases hvalues)
      rw [Contents.image, List.length_append, Contents.stores] at hdeclares
      rw [Directive.contents?, htext, byteStores_eq_code]
      exact hdeclares

theorem declares_of_readDirective {t : Symbols} {line : List Char} {effect : Effect}
    {raw : List Char} (hline : trim (stripComment raw) = line)
    (hread : readDirective t line = .ok effect) : Declares t (Block.ofLine? raw) effect := by
  unfold readDirective at hread
  split at hread
  · cases hread
  · next word name value hsplit =>
    split at hread
    · cases hread
    · next d hd =>
      split at hread
      · cases hread
      · next htaken =>
        have hblock : Block.ofLine? raw = (d.contents? value).map (Block.mk name) := by
          simp only [Block.ofLine?, hline, hsplit, hd, Option.bind_some]
        rw [hblock]
        exact declares_of_read (Bool.eq_false_iff.mpr htaken) hread

theorem declares_of_readLine {t : Symbols} {raw : List Char} {effect : Effect}
    (hdata : IsData raw) (hread : readLine t raw = .ok effect) :
    Declares t (Block.ofLine? raw) effect := by
  unfold readLine at hread
  split at hread
  · next hline =>
    cases hread
    have hblock : Block.ofLine? raw = none := by
      rw [Block.ofLine?, hline]
      rfl
    rw [hblock]
    exact .skip
  · next rest hline => exact declares_of_readDirective hline hread
  · next hblank hdot =>
    rcases isData_iff.mp hdata with hempty | hhead
    · exact absurd hempty hblank
    · obtain ⟨rest, hrest⟩ := List.head?_eq_some_iff.mp hhead
      exact absurd hrest (hdot rest)

/-! ## After all lines -/

/-- The assembler after lines that declare some variables. -/
structure Laid (bs : List Block) (a : Assembler) : Prop where
  vars : a.symbols.vars = bs.map fun b => ⟨b.name, b.contents.image.length⟩
  names : (bs.map Block.name).Nodup
  storable : ∀ b ∈ bs, b.contents.Storable
  words : a.words.toList = Store.code (storesFrom 0 bs)

theorem totalSize_map (bs : List Block) :
    totalSize (bs.map fun b => ⟨b.name, b.contents.image.length⟩) = (image bs).length := by
  induction bs with
  | nil => rfl
  | cons b bs ih => rw [List.map_cons, totalSize, ih, length_image_cons]

/-- A variable whose name no other variable has stands behind those before it. -/
theorem Symbols.offset?_of_split {t : Symbols} {before later : List Variable} {v : Variable}
    (hnames : (t.vars.map Variable.name).Nodup) (hsplit : t.vars = before ++ v :: later) :
    t.offset? v.name = some (totalSize before) := by
  have hnone : offsetFrom? 0 v.name before = none := by
    apply offsetFrom?_eq_none.mpr
    intro u hu
    rw [hsplit, List.map_append, List.map_cons] at hnames
    exact (List.nodup_append.mp hnames).2.2 u.name (List.mem_map_of_mem hu) v.name
      (List.mem_cons_self ..)
  rw [offset?, hsplit, offsetFrom?_append, hnone, Nat.zero_add, offsetFrom?, if_pos rfl]
  rfl

namespace Laid

variable {a : Assembler} {effect : Effect} {block? : Option Block}

theorem usedSpace_eq (ha : Laid bs a) : a.symbols.usedSpace = (image bs).length := by
  rw [Symbols.usedSpace, ha.vars, totalSize_map]

theorem ne_of_hasVariable (ha : Laid bs a) {name : String}
    (hnew : a.symbols.hasVariable name = false) (hb : b ∈ bs) : b.name ≠ name := by
  have hmem : ⟨b.name, b.contents.image.length⟩ ∈ a.symbols.vars := by
    rw [ha.vars]
    exact List.mem_map_of_mem hb
  simpa using List.any_eq_false.mp hnew _ hmem

theorem apply (ha : Laid bs a) (heffect : Declares a.symbols block? effect) :
    Laid (bs ++ block?.toList) (a.apply effect) := by
  cases heffect with
  | skip =>
      rw [Option.toList_none, List.append_nil]
      exact ha
  | define name value =>
      rw [Option.toList_none, List.append_nil]
      exact ⟨ha.vars, ha.names, ha.storable, ha.words⟩
  | declare b hnew hstorable =>
      rw [Option.toList_some]
      refine ⟨?_, ?_, ?_, ?_⟩
      · rw [List.map_append, ← ha.vars]
        rfl
      · rw [List.map_append, List.map_singleton]
        refine List.nodup_append.mpr ⟨ha.names, by simp, ?_⟩
        intro name hname other hother
        obtain ⟨c, hc, rfl⟩ := List.mem_map.mp hname
        obtain rfl := List.mem_singleton.mp hother
        exact ha.ne_of_hasVariable hnew hc
      · intro c hc
        rcases List.mem_append.mp hc with hc | hc
        · exact ha.storable c hc
        · obtain rfl := List.mem_singleton.mp hc
          exact hstorable
      · rw [Assembler.words_apply, ha.words, Effect.words, storesFrom_concat, ha.usedSpace_eq,
          Nat.zero_add, Store.code, Store.code, Store.code, List.flatMap_append]

/-- A variable stands behind those that have been declared before it. -/
theorem offset?_eq {before after : List Block} {b : Block} (ha : Laid (before ++ b :: after) a) :
    a.symbols.offset? b.name = some (image before).length := by
  have hvars := ha.vars
  rw [List.map_append, List.map_cons] at hvars
  have hnames : (a.symbols.vars.map Variable.name).Nodup := by
    rw [ha.vars, List.map_map]
    exact ha.names
  exact (Symbols.offset?_of_split hnames hvars).trans (congrArg some (totalSize_map before))

end Laid

/-- The assembler after all lines of a source. -/
def Assembler.ofSource (source : String) : Assembler :=
  (lines source.toList).foldl Assembler.feed {}

/-- After lines without a fault the assembler knows the variables that the lines declare. -/
theorem laid_foldl_feed {raws : List (List Char)} (hdata : ∀ raw ∈ raws, IsData raw)
    (hnone : (raws.foldl Assembler.feed {}).diagnostics = #[]) :
    Laid (raws.filterMap Block.ofLine?) (raws.foldl Assembler.feed {}) := by
  induction raws using List.reverseRecOn with
  | nil => exact ⟨rfl, List.nodup_nil, fun b hb => absurd hb List.not_mem_nil, rfl⟩
  | append_singleton raws raw ih =>
      rw [List.foldl_concat] at hnone ⊢
      rw [List.filterMap_append]
      cases hread : readLine (raws.foldl Assembler.feed {}).symbols raw with
      | error fault =>
          rw [Assembler.feed_of_error hread] at hnone
          exact absurd hnone (Array.push_ne_empty)
      | ok effect =>
          rw [Assembler.feed_of_ok hread, Assembler.diagnostics_apply] at hnone
          rw [Assembler.feed_of_ok hread]
          have hbefore := ih (fun r hr => hdata r (List.mem_append_left _ hr)) hnone
          have hline := declares_of_readLine (hdata raw (by simp)) hread
          have hlast : [raw].filterMap Block.ofLine? = (Block.ofLine? raw).toList := by
            cases hblock : Block.ofLine? raw <;> simp [hblock]
          rw [hlast]
          -- the number of the line is no part of what has been laid
          have hcounted : Laid (raws.filterMap Block.ofLine?)
              { raws.foldl Assembler.feed {} with
                line := (raws.foldl Assembler.feed {}).line + 1 } :=
            ⟨hbefore.vars, hbefore.names, hbefore.storable, hbefore.words⟩
          exact hcounted.apply hline

/-! ## Runs -/

variable {σ : Type} {source : String} {m : Machine}

/-- The machine that a run of declarations leaves behind: its memory holds the variables and nothing
else, and the rest of it is as after a reset. -/
structure Initialized (bs : List Block) (m m' : Machine) : Prop where
  memory : m'.memory.bytes.toList =
    image bs ++ List.replicate (m.memory.size - (image bs).length) 0
  registers : ∀ r, r ≠ .rip → m'.cpu.registers.get r = m.cpu.reset.registers.get r
  flags : m'.cpu.flags = m.cpu.reset.flags
  stack : m'.cpu.stack = m.cpu.reset.stack
  /-- A text without the character 0 is the string at the address of its variable, if the memory
  announces its size as it is. -/
  strings : m.memory.announced = m.memory.size → ∀ before name text after,
    bs = before ++ ⟨name, .string text⟩ :: after → '\x00' ∉ text →
      ∃ bytes, m'.memory.readString (UInt32.ofNat (image before).length) = .ok bytes ∧
        Utf8.decodeLossy bytes = String.ofList text

/-- The code of declarations without faults. -/
theorem assemble_of_data (hdata : ∀ raw ∈ lines source.toList, IsData raw)
    (hfaultless : ∀ list, assemble source ≠ .error (.diagnostics list))
    (hbs : LinesDeclare (lines source.toList) bs) :
    Laid bs (Assembler.ofSource source) ∧
      assemble source = .ok (Store.program (storesFrom 0 bs)) := by
  obtain rfl := linesDeclare_iff.mp hbs
  have hfinish : assemble source = (Assembler.ofSource source).finish := rfl
  have hnone : (Assembler.ofSource source).diagnostics.isEmpty = true := by
    by_contra hsome
    refine hfaultless (Assembler.ofSource source).diagnostics.toList ?_
    rw [hfinish, Assembler.finish, if_neg hsome]
  have hlaid : Laid ((lines source.toList).filterMap Block.ofLine?) (Assembler.ofSource source) :=
    laid_foldl_feed hdata (Array.isEmpty_iff.mp hnone)
  have hwords := congrArg List.toArray hlaid.words
  rw [Array.toArray_toList] at hwords
  refine ⟨hlaid, ?_⟩
  rw [hfinish, Assembler.finish, if_pos hnone, hwords, Store.resolve_code]

theorem size_program_storesFrom (bs : List Block) :
    (Store.program (storesFrom 0 bs)).size = 3 * storeCount bs := by
  rw [Store.size_program, length_storesFrom]

theorem image_append (bs bs' : List Block) : image (bs ++ bs') = image bs ++ image bs' :=
  List.flatMap_append

theorem image_singleton (b : Block) : image [b] = b.contents.image := List.append_nil _

/-- The memory after the stores of all variables. -/
theorem initialized_finish (p : Program) (hroom : (image bs).length ≤ m.memory.size)
    (hsmall : (image bs).length < 0x80000000) :
    Initialized bs m (Store.finish (storesFrom 0 bs) p.size (m.start p)) := by
  have hstarts : ((storesFrom 0 bs).foldl Store.apply m.memory.reset).StartsWith (image bs) :=
    startsWith_foldl_storesFrom m.memory.startsWith_reset (by simpa using hroom)
      (by simpa using hsmall)
  have hlist := hstarts.toList_eq
  rw [Store.size_foldl_apply, Memory.size_reset] at hlist
  refine ⟨hlist, ?_, rfl, rfl, ?_⟩
  · intro r hr
    cases r <;> first | rfl | exact absurd rfl hr
  · intro hannounced before name text after hsplit htext
    have hencode : text.flatMap String.utf8EncodeChar = Utf8.encode (String.ofList text) := by
      rw [Utf8.encode, String.toList_ofList]
    have himage : image bs =
        image before ++ (Utf8.encode (String.ofList text) ++ 0 :: image after) := by
      rw [hsplit, image_append, ← List.singleton_append, image_append, image_singleton,
        Contents.image, hencode, List.append_assoc, List.singleton_append]
    rw [himage, List.append_assoc, List.append_assoc, List.cons_append] at hlist
    rw [himage, List.length_append, List.length_append] at hsmall
    refine ⟨Utf8.encode (String.ofList text), ?_, Utf8.decodeLossy_encode _⟩
    refine Memory.readString_of_toList hlist ?_ (by omega) (Utf8.zero_notMem_encode ?_)
    · change ((storesFrom 0 bs).foldl Store.apply m.memory.reset).announced =
        ((storesFrom 0 bs).foldl Store.apply m.memory.reset).size
      rw [Store.announced_foldl_apply, Store.size_foldl_apply, Memory.announced_reset, hannounced,
        Memory.size_reset]
    · rwa [String.toList_ofList]

/-! ## Code that is too long -/

/-- Directives for more stores than the pointer can count are assembled, but the run of the code is
trapped behind the last store that the pointer comes to. -/
theorem trapped_of_directives (host : Host σ) (s : σ)
    (hdata : ∀ raw ∈ lines source.toList, IsData raw)
    (hfaultless : ∀ list, assemble source ≠ .error (.diagnostics list))
    (hbs : LinesDeclare (lines source.toList) bs) (hroom : (image bs).length ≤ m.memory.size)
    (hsmall : (image bs).length < 0x80000000) (hlimit : m.cpu.config.maxSteps = none)
    (hlong : 0x2aaaaaaa < storeCount bs) :
    ∃ p, assemble source = .ok p ∧ p.size = 3 * storeCount bs ∧ ∀ n, 0x2aaaaaab < n →
      ∃ m' dump, Machine.run host p n m s =
        ((m', s), some (.error { trap := .outsideProgram (-0x7fffffff), dump })) := by
  obtain ⟨hlaid, hassemble⟩ := assemble_of_data hdata hfaultless hbs
  have hfits := fits_of_mem_storesFrom hlaid.storable
    (by omega : 0 + (image bs).length ≤ m.memory.size) (by omega)
  refine ⟨_, hassemble, size_program_storesFrom bs, fun n hn => ?_⟩
  have hlength : ((storesFrom 0 bs).take 0x2aaaaaab).length = 0x2aaaaaab := by
    rw [List.length_take, length_storesFrom]
    exact Nat.min_eq_left hlong
  have hrun := Store.run_of_long host s ((storesFrom 0 bs).drop 0x2aaaaaab) hlength hlimit
    (fun w hw => hfits w (List.mem_of_mem_take hw)) (hlength.symm ▸ hn)
  rwa [List.take_append_drop] at hrun

theorem isData_of_on {raw : List Char} (hline : b.On raw) : IsData raw := by
  obtain ⟨-, -, rest, hdot, -⟩ := hline.exists_split
  exact isData_iff.mpr (Or.inr (by rw [hdot]; rfl))

/-- A line that declares a text is read without a fault, if no variable has the name yet. -/
theorem exists_readLine_of_text {t : Symbols} {name : String} {text raw : List Char}
    (hline : Block.On ⟨name, .string text⟩ raw) (hnew : t.hasVariable name = false) :
    ∃ effect, readLine t raw = .ok effect := by
  obtain ⟨word, value, rest, hdot, hsplit, hgives⟩ := hline.exists_split
  cases hgives with
  | string text =>
      have hquoted : unquote? ('\'' :: (text ++ ['\''])) = some text := unquote?_eq_some_iff.mpr rfl
      have hfind : Directive.ofWord? ".string" = some .string :=
        Directive.ofWord?_eq_some_iff.mpr rfl
      rw [hdot] at hsplit
      simp only [readLine, hdot, readDirective, hsplit, hfind, Directive.isTaken, hnew,
        Directive.read, hquoted]
      exact ⟨_, rfl⟩

/-- A source of one line, which declares a text of some letters. -/
def textSource (n : Nat) : String := ".string s '" ++ String.ofList (List.replicate n 'a') ++ "'"

section TextSource

variable (n : Nat)

theorem toList_textSource :
    (textSource n).toList = ".string s ".toList ++ '\'' :: (List.replicate n 'a' ++ ['\'']) := by
  simp [textSource]

theorem mem_textSource {c : Char} (hc : c ∈ (textSource n).toList) :
    c = 'a' ∨ c ∈ ".string s '".toList := by
  rw [toList_textSource, List.mem_append, List.mem_cons, List.mem_append] at hc
  rcases hc with hc | rfl | hc | hc
  · exact Or.inr (List.mem_append_left ['\''] hc)
  · exact Or.inr (by decide)
  · exact Or.inl (List.eq_of_mem_replicate hc)
  · exact Or.inr (List.mem_append_right ".string s ".toList hc)

theorem lines_textSource : lines (textSource n).toList = [(textSource n).toList] := by
  have hline : (textSource n).toList ≠ [] ∧ '\n' ∉ (textSource n).toList ∧
      (textSource n).toList.getLast? ≠ some '\r' := by
    refine ⟨?_, fun hmem => ?_, fun hlast => ?_⟩
    · rw [toList_textSource]
      exact List.cons_ne_nil _ _
    · rcases mem_textSource n hmem with hc | hc
      · cases hc
      · exact absurd hc (by decide)
    · rcases mem_textSource n (List.mem_of_getLast? hlast) with hc | hc
      · cases hc
      · exact absurd hc (by decide)
  have hlines := lines_intercalate (List.forall_mem_singleton.mpr hline)
  rwa [List.intercalate_singleton] at hlines

theorem on_textSource : Block.On ⟨"s", .string (List.replicate n 'a')⟩ (textSource n).toList := by
  have hblank : ∀ c ∈ [' '], isBlank c = true := List.forall_mem_singleton.mpr rfl
  have hholds : Holds (textSource n).toList
      (".string".toList ++ [' '] ++ "s".toList ++ [' '] ++
        '\'' :: (List.replicate n 'a' ++ ['\''])) :=
    ⟨[], [], [], by rw [toList_textSource]; simp, List.forall_mem_nil _, List.forall_mem_nil _,
      Or.inl rfl⟩
  have hname : Unbroken "s".toList := ⟨by decide, List.forall_mem_singleton.mpr rfl⟩
  have hhash : '#' ∉ "s".toList ∧ '#' ∉ '\'' :: (List.replicate n 'a' ++ ['\'']) :=
    ⟨by decide, by simp⟩
  exact .intro hholds ⟨List.cons_ne_nil _ _, hblank⟩ ⟨List.cons_ne_nil _ _, hblank⟩ hname hhash
    (.string _)

theorem linesDeclare_textSource : LinesDeclare (lines (textSource n).toList)
    [⟨"s", .string (List.replicate n 'a')⟩] := by
  rw [lines_textSource]
  exact .block (on_textSource n) .nil

theorem isData_textSource : ∀ raw ∈ lines (textSource n).toList, IsData raw := by
  rw [lines_textSource]
  exact List.forall_mem_singleton.mpr (isData_of_on (on_textSource n))

theorem faultless_textSource :
    ∀ list, assemble (textSource n) ≠ .error (.diagnostics list) := by
  obtain ⟨effect, hread⟩ := exists_readLine_of_text (t := {}) (on_textSource n) rfl
  intro list hfault
  have hfeed := Assembler.feed_of_ok (a := {}) hread
  have hnone : (Assembler.ofSource (textSource n)).diagnostics = #[] := by
    rw [Assembler.ofSource, lines_textSource, List.foldl_cons, List.foldl_nil, hfeed,
      Assembler.diagnostics_apply]
  change (Assembler.ofSource (textSource n)).finish = _ at hfault
  rw [Assembler.finish, if_pos (by rw [hnone]; rfl)] at hfault
  split at hfault <;> cases hfault

theorem flatMap_encode_letters :
    (List.replicate n 'a').flatMap String.utf8EncodeChar = List.replicate n 97 := by
  induction n with
  | zero => rfl
  | succ n ih => rw [List.replicate_succ, List.flatMap_cons, ih]; rfl

theorem length_image_textSource :
    (image [⟨"s", .string (List.replicate n 'a')⟩]).length = n + 1 := by
  rw [image_singleton, Contents.image, flatMap_encode_letters, List.length_append,
    List.length_replicate]
  rfl

theorem storeCount_textSource : storeCount [⟨"s", .string (List.replicate n 'a')⟩] = n := by
  rw [storeCount, storeCount, Contents.storeCount, flatMap_encode_letters, List.length_replicate]
  rfl

end TextSource

/-! ## All sources of directives -/

/-- Directives build the memory that they describe.  A source of directives without faults can be
assembled, and its variables stand one after the other from address 0 on.  If they fit into a
memory, a run of the code without a step limit ends with exit code 0 and has filled the memory with
them.

The pointer of the machine is a word, and so must be the length of the code for the pointer to come
to its end.  The code has three words for a `.dword` and for each byte of a list or a text, so it is
too long only for more than 715827882 of them. -/
theorem run_of_directives (host : Host σ) (s : σ)
    (hdata : ∀ raw ∈ lines source.toList, IsData raw)
    (hfaultless : ∀ list, assemble source ≠ .error (.diagnostics list)) :
    ∃ bs p, (∀ bs', LinesDeclare (lines source.toList) bs' ↔ bs' = bs) ∧
      assemble source = .ok p ∧ p.size = 3 * storeCount bs ∧
      (∀ before b after, bs = before ++ b :: after →
        (Assembler.ofSource source).symbols.offset? b.name = some (image before).length) ∧
      ∀ m : Machine, (image bs).length ≤ m.memory.size → (image bs).length < 0x80000000 →
        m.cpu.config.maxSteps = none → p.size < 0x80000000 →
        ∃ m' steps, Initialized bs m m' ∧ ∀ n, steps ≤ n →
          Machine.run host p n m s = ((m', s), some (.ok { code := 0, steps })) := by
  have hunique : ∀ bs', LinesDeclare (lines source.toList) bs' ↔
      bs' = (lines source.toList).filterMap Block.ofLine? :=
    fun bs' => linesDeclare_iff.trans eq_comm
  generalize (lines source.toList).filterMap Block.ofLine? = bs at hunique
  obtain ⟨hlaid, hassemble⟩ := assemble_of_data hdata hfaultless ((hunique bs).mpr rfl)
  refine ⟨bs, _, hunique, hassemble, size_program_storesFrom bs, ?_, ?_⟩
  · intro before b after hsplit
    rw [hsplit] at hlaid
    exact hlaid.offset?_eq
  · intro m hroom hsmall hlimit hlength
    have hfits := fits_of_mem_storesFrom hlaid.storable
      (by omega : 0 + (image bs).length ≤ m.memory.size) (by omega)
    exact ⟨_, _, initialized_finish _ hroom hsmall,
      fun n hn => Store.run_program host s hlength hlimit hfits hn⟩

/-- A text, a list of bytes with commas behind it and a word fill ten bytes of a memory of twelve;
a constant takes up no room. -/
theorem run_of_directives_of_variables :
    LinesDeclare (lines ".string s 'hé' # s\n.bytes b 0x1,99,,\n\n.const k 7\n.dword n 258".toList)
        [⟨"s", .string ['h', 'é']⟩, ⟨"b", .bytes [1, 99]⟩, ⟨"n", .dword 258⟩] ∧
      ∃ p, assemble ".string s 'hé' # s\n.bytes b 0x1,99,,\n\n.const k 7\n.dword n 258" =
          .ok p ∧
        p.words = #[24, 0, 104, 24, 1, -61, 24, 2, -87, 24, 4, 1, 24, 5, 99, 25, 6, 258] ∧
        ∃ (m' : Machine) (steps : Nat),
          m'.memory.bytes.toList = [104, 195, 169, 0, 1, 99, 0, 0, 1, 2, 0, 0] ∧
          ∀ n, steps ≤ n →
            Machine.run ScriptedHost.answer p n (Machine.new { memorySize := 12 }) {} =
              ((m', {}), some (.ok { code := 0, steps })) := by
  generalize hsource : ".string s 'hé' # s\n.bytes b 0x1,99,,\n\n.const k 7\n.dword n 258" =
    source
  have hdeclare : LinesDeclare (lines source.toList)
      [⟨"s", .string ['h', 'é']⟩, ⟨"b", .bytes [1, 99]⟩, ⟨"n", .dword 258⟩] := by
    rw [← hsource]
    exact linesDeclare_iff.mpr (by decide +kernel)
  have hassemble : assemble source =
      .ok ⟨#[24, 0, 104, 24, 1, -61, 24, 2, -87, 24, 4, 1, 24, 5, 99, 25, 6, 258]⟩ := by
    rw [← hsource]
    decide +kernel
  have hdata : ∀ raw ∈ lines source.toList, IsData raw := by
    rw [← hsource]
    decide +kernel
  have hfaultless : ∀ list, assemble source ≠ .error (.diagnostics list) := by
    intro list hfault
    rw [hassemble] at hfault
    cases hfault
  obtain ⟨bs, p, hunique, hp, -, -, hrun⟩ := run_of_directives ScriptedHost.answer {} hdata
    hfaultless
  obtain rfl := (hunique _).mp hdeclare
  rw [hassemble] at hp
  cases hp
  obtain ⟨m', steps, hinitialized, hrun⟩ := hrun (Machine.new { memorySize := 12 }) (by decide)
    (by decide) rfl (by decide)
  refine ⟨hdeclare, _, hassemble, rfl, m', steps, ?_, hrun⟩
  rw [hinitialized.memory]
  decide

/-- Without the two conditions, directives need not build the memory that they describe, nor texts
be read from it.  The code for a text of 715827883 letters is too long, although the text fits into
the memory, so its run is trapped.  And where a memory of four bytes announces two, a text of three
letters is stored, but only two of them are read. -/
theorem text_too_long_or_unannounced :
    (LinesDeclare (lines (textSource 715827883).toList)
        [⟨"s", .string (List.replicate 715827883 'a')⟩] ∧
      (∀ raw ∈ lines (textSource 715827883).toList, IsData raw) ∧
      (image [⟨"s", .string (List.replicate 715827883 'a')⟩]).length = 715827884 ∧
      ∃ p, assemble (textSource 715827883) = .ok p ∧ p.size = 2147483649 ∧ ∀ n, 715827883 < n →
        ∃ m' dump,
          Machine.run ScriptedHost.answer p n (Machine.new { memorySize := 715827884 }) {} =
            ((m', {}), some (.error { trap := .outsideProgram (-2147483647), dump }))) ∧
    LinesDeclare (lines ".string s 'hey'".toList) [⟨"s", .string ['h', 'e', 'y']⟩] ∧
      ∃ p m', assemble ".string s 'hey'" = .ok p ∧
        Machine.run ScriptedHost.answer p 3
            { Machine.new { memorySize := 4 } with memory.announced := 2 } {} =
          ((m', {}), some (.ok { code := 0, steps := 3 })) ∧
        m'.memory.bytes.toList = [104, 101, 121, 0] ∧ m'.memory.readString 0 = .ok [104, 101] := by
  constructor
  · have hroom : (image [⟨"s", .string (List.replicate 715827883 'a')⟩]).length =
        (Machine.new { memorySize := 715827884 }).memory.size :=
      (length_image_textSource _).trans (Memory.size_zeros _).symm
    have hlong : 0x2aaaaaaa < storeCount [⟨"s", .string (List.replicate 715827883 'a')⟩] := by
      rw [storeCount_textSource]
      decide
    refine ⟨linesDeclare_textSource _, isData_textSource _, length_image_textSource _, ?_⟩
    have htrapped := trapped_of_directives ScriptedHost.answer {} (isData_textSource _)
      (faultless_textSource _) (linesDeclare_textSource _) (Nat.le_of_eq hroom)
      ((length_image_textSource _).trans_lt (by decide)) rfl hlong
    rwa [storeCount_textSource] at htrapped
  · refine ⟨linesDeclare_iff.mpr (by decide +kernel), ⟨#[24, 0, 104, 24, 1, 101, 24, 2, 121]⟩, _,
      by decide +kernel, rfl, by decide +kernel, ?_⟩
    rw [Memory.readString, Memory.stringFrom]
    decide +kernel

end WordMachine.Assembly
