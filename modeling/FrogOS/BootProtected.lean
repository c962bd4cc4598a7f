import FrogOS.BootCopy

/-!
# The boot sector enters protected mode

What follows the loop of `boot.asm`: the message after it, protected mode, one more message and the
jump to stage 2. `video` points to the line of the next message, and is the one variable of the boot
sector that the loop must not touch; that the copy is there in the end does not say so. `AfterStart`
goes through the run once more with it.

## Representation

* In protected mode every segment register is loaded with the selector `0x10`, which stands for the
  address 0 and 4 GB. Such a segment is one of real mode with the value 0 and that limit.
* The jump to `0x400200` ends the code of the boot sector; what is there is the subject of
  `FrogOS.Stage2Paging`.

## Main definitions

* `protectedMode` — from `protected_mode` to the jump
* `AfterStart` — the states with `video`

## Main results

* `boot_enters` — the boot sector gets to the jump with the copy in memory
-/

namespace FrogOS

open ByteMemory RealMode StepSystem

namespace BootLabels

variable (L : BootLabels)

def protectedMessage : ℕ := L.message + 44

end BootLabels

namespace BootSector

/-! ### The code -/

/-- The loads of `0x10` into all segment registers but `cs`. -/
def protectedSegments (c : Cpu) : Cpu :=
  let c := c.setLow16 .eax 0x10
  { c with
    seg := fun g => if g = .cs then c.seg g else 0
    limit := fun g => if g = .cs then c.limit g else 2 ^ 32 }

/-- `.write_letter` of `protected_mode`. -/
def protectedLetters : ℕ → Cpu → Option Cpu
  | 0, _ => none
  | fuel + 1, c => do
    let al ← c.read8 .ds (c.reg .esi + c.reg .ebx)
    let c := c.setLow8 .eax al
    let c := c.cmp ((c.low8 .eax).setWidth 32) 0
    if c.low8 .eax = 0 then some c
    else do
      let c ← c.write .ds (c.reg .edi + c.reg .ebx * 2) (bytes16 (c.low16 .eax))
      protectedLetters fuel (c.inc .ebx)

/-- `protected_mode`, up to the jump. -/
def protectedMode (L : BootLabels) (c : Cpu) : Option Cpu := do
  let c := protectedSegments c
  let c := c.set .esi (BitVec.ofNat 32 L.protectedMessage)
  let video ← c.read32 .ds (BitVec.ofNat 32 L.video)
  let c := c.set .edi video
  let c := c.setHigh8 .eax 0x0f
  let c := c.xorSelf .ebx
  protectedLetters (c.limit .ds) c

/-! ### A message in real mode -/

section messages

variable {L : BootLabels} {c t : Cpu} {a n v : ℕ} {m m' : ByteMemory}

/-- A call of `write_string`, with the stack below `0x9000`. -/
theorem call_writeString (hflat : Flat c) (hsp : c.sp = 0x9000) (ret : BitVec 16)
    (htext : IsText c.mem a n) (hesi : c.reg .esi = BitVec.ofNat 32 a)
    (hvideo : load32 c.mem L.video = BitVec.ofNat 32 v) (ha : a + n < 0x7e00) (hv : 0xb8000 ≤ v)
    (hv' : v + 2 * n < 2 ^ 32) :
    ∃ u, c.call ret (writeString L) = some u ∧
      load32 u.mem L.video = BitVec.ofNat 32 (v + 160) ∧
      Cpu.Returns (messageArea L v n) 0x7e00 c u := by
  have hle := L.message_le
  have hvid : L.video = L.message + 110 := rfl
  have htop := toNat_top hsp
  have hroom : Cpu.StackRoom 0x7e00 c 2 := ⟨hflat.ss, hflat.limit_ss, by rw [htop]; decide⟩
  have hlen : (bytes16 ret).length = 2 := rfl
  have hpushed : ∀ x, x < 0x8ffe → (c.pushed (bytes16 ret)).mem x = c.mem x := fun x hx =>
    storeBytes_of_outside (Or.inl (by rw [htop, hlen]; omega))
  have htext' : IsText (c.pushed (bytes16 ret)).mem a n :=
    htext.congr fun x _ hx => hpushed x (by omega)
  have hvideo' : load32 (c.pushed (bytes16 ret)).mem L.video = BitVec.ofNat 32 v :=
    (load32_congr fun i hi => hpushed _ (by omega)).trans hvideo
  obtain ⟨t, ht, hnext, hret⟩ := writeString_spec (c := c.pushed (bytes16 ret))
    (hflat.congr rfl rfl) htext' hesi hvideo' (by omega) (by omega) hv'
  have harea : ∀ x ∈ messageArea L v n, x < 0x7e00 ∨ c.sp.toNat ≤ x := by
    rintro x (hscreen | hvideo)
    · have := hscreen.1
      exact Or.inr (by omega)
    · have := hvideo.2
      exact Or.inl (by omega)
  obtain ⟨u, hu, -, -, humem, huret⟩ :=
    (hret.mono subset_rfl (by omega)).call hroom harea ht
  exact ⟨u, hu, humem ▸ hnext, huret⟩

/-- A string of the boot sector that is still in memory. -/
theorem isText_of_holdsData (h : L.HoldsData m) (hm : ∀ x, L.message ≤ x → x < L.video → m' x = m x)
    {k : ℕ} (hk : k + n < 110) (hletters : ∀ i < n, bootData[k + i]? ≠ some 0)
    (hend : bootData[k + n]? = some 0) : IsText m' (L.message + k) n := by
  have hvid : L.video = L.message + 110 := rfl
  constructor
  · intro i hi hzero
    refine hletters i hi ?_
    rw [getElem?_of_holdsData h (by omega), ← hm _ (by omega) (by omega), ← Nat.add_assoc]
    exact congrArg some hzero
  · rw [getElem?_of_holdsData h (by omega), Option.some_inj, ← hm _ (by omega) (by omega),
      ← Nat.add_assoc] at hend
    exact hend

/-- The strings are not in the memory that the boot sector changes. -/
theorem Copied.messages {disk : ℕ → BitVec 8} {m₀ : ByteMemory} (h : Copied L disk m₀ m n) {x : ℕ}
    (hx : L.message ≤ x) (hx' : x < L.video) : m x = m₀ x := by
  have hle := L.message_le
  have hle' := L.le_message
  have hvid : L.video = L.message + 110 := rfl
  have hdrive : L.driveNumber = L.message + 126 := rfl
  refine h.frame x ?_ (by omega)
  rintro (hin | hin | hin | hin | hin)
  · have := hin.1
    omega
  all_goals omega

end messages

/-! ### The line of the next message -/

section video

variable {L : BootLabels} {int13 : ℕ → Cpu → Cpu} {disk : ℕ → BitVec 8} {sectors : ℕ}
  {drive : BitVec 8} {ok : ℕ → Bool} {m₀ : ByteMemory} {j w : ℕ} {c t : Cpu} {v : BitVec 32}

theorem video_start {s : BootSector} (h : BootEntry L drive s) (ht : start L s.cpu = some t) :
    load32 t.mem L.video = 0xb80a0 := by
  have hle := L.message_le
  have hvid : L.video = L.message + 110 := rfl
  have hdrive : L.driveNumber = L.message + 126 := rfl
  have hunreal : L.unrealMessage = L.message + 22 := rfl
  have hp : (BitVec.ofNat 32 L.driveNumber).toNat = L.driveNumber := toNat_ofNat_of_lt (by omega)
  obtain ⟨c, hc, ht⟩ := Option.bind_eq_some_iff.mp ht
  obtain ⟨u, hu, ht⟩ := Option.bind_eq_some_iff.mp ht
  obtain rfl := Option.some.inj ht
  obtain rfl := Cpu.eq_of_write (c := { s.cpu with sp := 0x9000 }) h.ds hc
  -- the processor at the call
  let m := storeBytes s.cpu.mem (BitVec.ofNat 32 L.driveNumber).toNat [s.cpu.low8 .edx]
  let d := (unrealMode { s.cpu with sp := 0x9000, mem := m }).set .esi
    (BitVec.ofNat 32 L.unrealMessage)
  have hflat : Flat d := (flat_unrealMode (c := { s.cpu with sp := 0x9000, mem := m }) h.ds h.ss
    h.limit_ds h.limit_ss h.limit_fs).congr rfl rfl
  have hout : ∀ x, x < L.driveNumber → d.mem x = s.cpu.mem x := fun x hx =>
    storeBytes_of_outside (Or.inl (by rw [hp]; exact hx))
  have htext : IsText d.mem L.unrealMessage 21 :=
    (isText_unrealMessage h.data).congr fun x _ hx => hout x (by omega)
  have hvideo : load32 d.mem L.video = BitVec.ofNat 32 0xb8000 :=
    (load32_congr fun i hi => hout _ (by omega)).trans (load32_video h.data)
  obtain ⟨u', hu', hnext, -⟩ := call_writeString hflat rfl L.unrealRet htext (Cpu.set_reg_self ..)
    hvideo (by omega) le_rfl (by omega)
  obtain rfl := Option.some.inj (hu'.symm.trans hu)
  exact hnext

theorem video_prepareCopy (h : AtLoop L disk drive m₀ j c) (ht : prepareCopy c = some t)
    (hv : load32 c.mem L.video = v) : load32 t.mem L.video = v := by
  have hle := L.message_le
  have hvid : L.video = L.message + 110 := rfl
  have htop := toNat_top h.sp
  have hlen := length_bytes32 (c.reg .ecx)
  have hroom : Cpu.StackRoom 0x7e00 c (bytes32 (c.reg .ecx)).length := by
    rw [hlen]
    exact h.readReady.stackRoom.mono (by decide)
  obtain ⟨d, hd, ht⟩ := Option.bind_eq_some_iff.mp ht
  obtain rfl := Option.some.inj ((Cpu.push_eq hroom).symm.trans hd)
  obtain rfl := Option.some.inj ht
  refine (load32_congr fun i hi => ?_).trans hv
  exact storeBytes_of_outside (Or.inl (by rw [htop, hlen]; omega))

theorem video_copyWord (hj : j < 256) (hw : w < 0x4000) (h : AtCopy L disk drive m₀ j w c)
    (ht : copyWord c = some t) (hv : load32 c.mem L.video = v) : load32 t.mem L.video = v := by
  have hle := L.message_le
  have hvid : L.video = L.message + 110 := rfl
  obtain ⟨x, -, ht⟩ := Option.bind_eq_some_iff.mp ht
  obtain ⟨d, hd, ht⟩ := Option.bind_eq_some_iff.mp ht
  obtain rfl := Cpu.eq_of_write (c := c.set .eax x) h.flat.gs hd
  obtain rfl := Option.some.inj ht
  have hedi : ((c.set .eax x).reg .edi).toNat = 0x400000 + (0x10000 * j + 4 * w) := by
    rw [Cpu.set_reg_of_ne (by decide), h.edi, toNat_ofNat_of_lt (by omega)]
  refine (load32_congr fun i hi => ?_).trans hv
  exact storeBytes_of_outside (Or.inl (by rw [hedi]; omega))

theorem video_countIteration (ht : countIteration c = some t) (hv : load32 c.mem L.video = v) :
    load32 t.mem L.video = v := by
  obtain ⟨d, hd, ht⟩ := Option.bind_eq_some_iff.mp ht
  obtain ⟨x, -, hd⟩ := Option.bind_eq_some_iff.mp hd
  obtain rfl := Option.some.inj hd
  obtain rfl := Option.some.inj ht
  exact hv

/-- A read, and what is done before the copy. -/
theorem video_loop (hdisk : ReadsDisk int13 disk sectors drive ok)
    (hsectors : 128 * 256 ≤ sectors) (hj : j < 256) (hok : ok j = true)
    (h : AtLoop L disk drive m₀ j c)
    (hs : step L int13 ⟨.loop, c, j⟩ () = some ⟨.copyLoop, t, j + 1⟩)
    (hv : load32 c.mem L.video = v) : load32 t.mem L.video = v := by
  have hle := L.message_le
  have hvid : L.video = L.message + 110 := rfl
  have hdap : L.dap = L.message + 127 := rfl
  obtain ⟨d, hd, hecx, -, -, hret⟩ := readNext_spec (hdisk j) hsectors hj h.ecx h.readReady
  rw [hok] at hret
  obtain ⟨d', hd', hs⟩ := Option.bind_eq_some_iff.mp hs
  obtain rfl := Option.some.inj (hd.symm.trans hd')
  obtain ⟨-, hs⟩ | ⟨-, hs⟩ := ite_eq_iff.mp hs
  · exact Place.noConfusion (congrArg place (Option.some.inj hs))
  obtain ⟨e, he, heq⟩ := Option.map_eq_some_iff.mp hs
  obtain rfl : e = t := congrArg cpu heq
  refine video_prepareCopy (h.of_returns hecx hret) he ?_
  refine (load32_congr fun i hi => hret.mem _ (fun hin => ?_) (by omega)).trans hv
  obtain hbuffer | hpacket := hin
  · have := hbuffer.1
    omega
  · have := hpacket.1
    omega

/-- A word of the copy, and the end of a part. -/
theorem video_copyLoop {n : ℕ} {s : BootSector} (hj : j < 256) (hw : w < 0x4000)
    (h : AtCopy L disk drive m₀ j w c) (hs : step L int13 ⟨.copyLoop, c, n⟩ () = some s)
    (hv : load32 c.mem L.video = v) : load32 s.cpu.mem L.video = v := by
  obtain ⟨d, hd, hs⟩ := Option.bind_eq_some_iff.mp hs
  have hvd := video_copyWord hj hw h hd hv
  obtain ⟨-, hs⟩ | ⟨-, hs⟩ := ite_eq_iff.mp hs
  · obtain rfl := Option.some.inj hs
    exact hvd
  obtain ⟨e, he, hs⟩ := Option.bind_eq_some_iff.mp hs
  have hve := video_countIteration he hvd
  obtain ⟨-, hs⟩ | ⟨-, hs⟩ := ite_eq_iff.mp hs
  all_goals
    obtain rfl := Option.some.inj hs
    exact hve

end video

/-! ### The message in protected mode -/

section protectedMode

variable {L : BootLabels} {c : Cpu} {a n v : ℕ}

/-- The letters from number `j` on go to the screen at `v`. -/
theorem protectedLetters_spec (ha : a + n < 2 ^ 16) (hv : 2 ^ 16 ≤ v) (hv' : v + 2 * n < 2 ^ 32) :
    ∀ {fuel j : ℕ} {c : Cpu}, c.seg .ds = 0 → c.limit .ds = 2 ^ 32 → IsText c.mem a n →
      c.reg .esi = BitVec.ofNat 32 a → c.reg .edi = BitVec.ofNat 32 v →
      c.reg .ebx = BitVec.ofNat 32 j → j ≤ n → n - j < fuel →
      ∃ t, protectedLetters fuel c = some t ∧ t.sp = c.sp ∧
        ∀ x, x ∉ Set.Ico v (v + 2 * n) → t.mem x = c.mem x := by
  intro fuel
  induction fuel with
  | zero =>
    intro j c _ _ _ _ _ _ _ hfuel
    exact absurd hfuel (Nat.not_lt_zero _)
  | succ fuel ih =>
    intro j c hds hlimit htext hesi hedi hebx hj hfuel
    have hoff : (c.reg .esi + c.reg .ebx).toNat = a + j := by
      rw [hesi, hebx, ← BitVec.ofNat_add]
      exact toNat_ofNat_of_lt (by omega)
    have hread : c.read8 .ds (c.reg .esi + c.reg .ebx) = some (c.mem (a + j)) := by
      rw [Cpu.read8_of_zero hds (by rw [hoff, hlimit]; omega), hoff]
    -- the processor after the comparison
    generalize hd : (c.setLow8 .eax (c.mem (a + j))).cmp
      (((c.setLow8 .eax (c.mem (a + j))).low8 .eax).setWidth 32) 0 = d
    have hlow : d.low8 .eax = c.mem (a + j) := hd ▸ c.low8_setLow8 .eax _
    have hreg : ∀ r, r ≠ .eax → d.reg r = c.reg r := fun r hr => hd ▸ Cpu.set_reg_of_ne hr _
    have hsame : d.sp = c.sp ∧ d.seg = c.seg ∧ d.limit = c.limit ∧ d.mem = c.mem :=
      hd ▸ ⟨rfl, rfl, rfl, rfl⟩
    obtain ⟨hsp, hseg, hlim, hmem⟩ := hsame
    have hstep : protectedLetters (fuel + 1) c = if d.low8 .eax = 0 then some d else
        (d.write .ds (d.reg .edi + d.reg .ebx * 2) (bytes16 (d.low16 .eax))).bind
          fun c => protectedLetters fuel (c.inc .ebx) := by
      rw [protectedLetters, hread, ← hd]
      rfl
    rw [hstep]
    rcases hj.eq_or_lt with rfl | hlt
    · rw [if_pos (hlow.trans htext.2)]
      exact ⟨d, rfl, hsp, fun x _ => congrFun hmem x⟩
    · rw [if_neg fun h => htext.1 j hlt (hlow.symm.trans h)]
      have hdest : (d.reg .edi + d.reg .ebx * 2).toNat = v + 2 * j := by
        have htwo : (2 : BitVec 32).toNat = 2 := rfl
        rw [hreg .edi (by decide), hreg .ebx (by decide), hedi, hebx, BitVec.toNat_add,
          BitVec.toNat_mul, toNat_ofNat_of_lt (by omega), toNat_ofNat_of_lt (by omega), htwo]
        omega
      have hlen : (bytes16 (d.low16 .eax)).length = 2 := rfl
      rw [Cpu.write_of_zero _ (hseg ▸ hds) (by rw [hdest, hlim, hlimit, hlen]; omega), hdest,
        Option.bind_some]
      have hout : ∀ x, x ∉ Set.Ico v (v + 2 * n) →
          storeBytes d.mem (v + 2 * j) (bytes16 (d.low16 .eax)) x = c.mem x := by
        intro x hx
        rw [Set.mem_Ico] at hx
        rw [storeBytes_of_outside (by omega), hmem]
      have hnext : d.reg .ebx + 1 = BitVec.ofNat 32 (j + 1) := by
        rw [hreg .ebx (by decide), hebx]
        exact (BitVec.ofNat_add j 1).symm
      obtain ⟨t, ht, htsp, htmem⟩ := ih (j := j + 1)
        (c := Cpu.inc { d with mem := storeBytes d.mem (v + 2 * j) (bytes16 (d.low16 .eax)) } .ebx)
        (hseg ▸ hds) (hlim ▸ hlimit)
        (htext.congr fun x _ hx => hout x fun hin => by have := hin.1; omega)
        ((Cpu.set_reg_of_ne (by decide) _).trans ((hreg .esi (by decide)).trans hesi))
        ((Cpu.set_reg_of_ne (by decide) _).trans ((hreg .edi (by decide)).trans hedi))
        ((Cpu.set_reg_self ..).trans hnext) hlt (by omega)
      exact ⟨t, ht, htsp.trans hsp, fun x hx => (htmem x hx).trans (hout x hx)⟩

theorem protectedMode_spec (htext : IsText c.mem L.protectedMessage 21)
    (hvideo : load32 c.mem L.video = BitVec.ofNat 32 v) (hv : 2 ^ 16 ≤ v)
    (hv' : v + 2 * 21 < 2 ^ 32) :
    ∃ t, protectedMode L c = some t ∧ t.sp = c.sp ∧
      ∀ x, x ∉ Set.Ico v (v + 2 * 21) → t.mem x = c.mem x := by
  have hle := L.message_le
  have hvid : L.video = L.message + 110 := rfl
  have hmessage : L.protectedMessage = L.message + 44 := rfl
  let d := (protectedSegments c).set .esi (BitVec.ofNat 32 L.protectedMessage)
  have hread : d.read32 .ds (BitVec.ofNat 32 L.video) = some (BitVec.ofNat 32 v) := by
    have hlimit : d.limit .ds = 2 ^ 32 := rfl
    rw [Cpu.read32_of_zero rfl (by rw [toNat_video, hlimit]; omega), toNat_video]
    exact congrArg some hvideo
  obtain ⟨t, ht, hsp, hmem⟩ := protectedLetters_spec (a := L.protectedMessage) (n := 21) (v := v)
    (j := 0) (c := ((d.set .edi (BitVec.ofNat 32 v)).setHigh8 .eax 0x0f).xorSelf .ebx) (by omega) hv
    hv' rfl rfl htext rfl rfl rfl (Nat.zero_le _) (by decide : 21 - 0 < 2 ^ 32)
  exact ⟨t, Option.bind_eq_some_iff.mpr ⟨_, hread, ht⟩, hsp, hmem⟩

end protectedMode

/-! ### Whole runs -/

/-- The states of a run in which every read succeeds, with the line of the next message. -/
inductive AfterStart (L : BootLabels) (disk : ℕ → BitVec 8) (drive : BitVec 8) (s₀ : BootSector) :
    BootSector → Prop
  | start : AfterStart L disk drive s₀ s₀
  | loop {j : ℕ} {c : Cpu} (hj : j < 256) (h : AtLoop L disk drive s₀.cpu.mem j c)
      (hv : load32 c.mem L.video = 0xb80a0) : AfterStart L disk drive s₀ ⟨.loop, c, j⟩
  | copyLoop {j w : ℕ} {c : Cpu} (hj : j < 256) (hw : w < 0x4000)
      (h : AtCopy L disk drive s₀.cpu.mem j w c) (hv : load32 c.mem L.video = 0xb80a0) :
      AfterStart L disk drive s₀ ⟨.copyLoop, c, j + 1⟩
  | done {c : Cpu} {n : ℕ} (h : AtLoop L disk drive s₀.cpu.mem 256 c)
      (hv : load32 c.mem L.video = 0xb80a0) : AfterStart L disk drive s₀ ⟨.done, c, n⟩
  | entered {s : BootSector} (h : s.place = .protectedMode) : AfterStart L disk drive s₀ s

section runs

variable {L : BootLabels} {int13 : ℕ → Cpu → Cpu} {disk : ℕ → BitVec 8} {sectors : ℕ}
  {drive : BitVec 8} {ok : ℕ → Bool} {s₀ s t : BootSector}

theorem AfterStart.step (hentry : BootEntry L drive s₀)
    (hdisk : ReadsDisk int13 disk sectors drive ok) (hsectors : 128 * 256 ≤ sectors)
    (hok : ∀ i < 256, ok i = true) (h : AfterStart L disk drive s₀ s)
    (hs : BootSector.step L int13 s () = some t) : AfterStart L disk drive s₀ t := by
  cases h with
  | start =>
    rw [BootSector.step, hentry.place] at hs
    obtain ⟨c, hc, rfl⟩ := Option.map_eq_some_iff.mp hs
    obtain ⟨c', hc', hloop⟩ : ∃ c, BootSector.start L s₀.cpu = some c ∧
        AtLoop L disk drive s₀.cpu.mem 0 c := start_spec hentry
    obtain rfl := Option.some.inj (hc'.symm.trans hc)
    rw [hentry.reads]
    exact .loop (by decide) hloop (video_start hentry hc)
  | @loop j c hj hloop hv =>
    obtain ⟨c', hc', hcopy⟩ := step_loop_of_true hdisk hsectors hj (hok j hj) hloop
    obtain rfl := Option.some.inj (hc'.symm.trans hs)
    exact .copyLoop hj (by decide) hcopy (video_loop hdisk hsectors hj (hok j hj) hloop hs hv)
  | @copyLoop j w c hj hw hcopy hv =>
    have hvt := video_copyLoop hj hw hcopy hs hv
    rcases Nat.lt_or_eq_of_le (Nat.succ_le_of_lt hw) with hlt | heq
    · obtain ⟨c', hc', hcopy'⟩ := step_copyLoop_of_lt hj hlt hcopy
      obtain rfl := Option.some.inj (hc'.symm.trans hs)
      exact .copyLoop hj hlt hcopy' hvt
    · obtain ⟨c', hc', hloop⟩ := step_copyLoop_of_eq hj heq hcopy
      obtain rfl := Option.some.inj (hc'.symm.trans hs)
      by_cases hlast : j + 1 < 256
      · rw [if_pos hlast]
        exact .loop hlast hloop hvt
      · rw [if_neg hlast]
        have hj' : j + 1 = 256 := by omega
        exact .done (hj' ▸ hloop) hvt
  | done hloop hv =>
    obtain ⟨d, -, hs⟩ := Option.bind_eq_some_iff.mp hs
    obtain rfl := Option.some.inj hs
    exact .entered rfl
  | entered hplace =>
    rw [BootSector.step, hplace] at hs
    exact absurd hs (Option.some_ne_none _).symm

/-- A message on one of the first lines is in the memory of the boot sector. -/
theorem mem_bootScratch_of_line {v x : ℕ} (hv : 0xb8000 ≤ v) (hv' : v + 2 * 21 ≤ 0xb8fa0)
    (hx : x ∈ Set.Ico v (v + 2 * 21)) : x ∈ bootScratch L :=
  Or.inr (Or.inl ⟨hv.trans hx.1, hx.2.trans_le hv'⟩)

/-- The message after the loop, and the step into protected mode. -/
theorem step_done {m₀ : ByteMemory} {c : Cpu} {n : ℕ} (hdata : L.HoldsData m₀)
    (h : AtLoop L disk drive m₀ 256 c) (hv : load32 c.mem L.video = 0xb80a0) :
    ∃ d, BootSector.step L int13 ⟨.done, c, n⟩ () = some ⟨.protectedMode, d, n⟩ ∧ d.sp = 0x9000 ∧
      load32 d.mem L.video = 0xb8140 ∧ Copied L disk m₀ d.mem (0x10000 * 256) := by
  have hle := L.message_le
  have hdone : L.doneMessage = L.message + 88 := rfl
  have htext : IsText c.mem L.doneMessage 21 :=
    isText_of_holdsData hdata (fun x => h.copied.messages) (by decide) (by decide) (by decide)
  obtain ⟨u, hu, hnext, hret⟩ := call_writeString (c := c.set .esi (BitVec.ofNat 32 L.doneMessage))
    (h.flat.congr rfl rfl) h.sp L.doneRet htext (Cpu.set_reg_self ..) (v := 0xb80a0) hv (by omega)
    (by decide) (by decide)
  have htop := toNat_top h.sp
  refine ⟨_, Option.bind_eq_some_iff.mpr ⟨u, hu, rfl⟩, hret.sp.trans h.sp, hnext,
    h.copied.congr fun x hx => hret.mem x (fun hin => ?_) fun hin => ?_⟩
  · obtain hscreen | hvideo := hin
    · exact hx (mem_bootScratch_of_line (by decide) (by decide) hscreen)
    · have := hvideo.1
      have := hvideo.2
      exact hx (Or.inr (Or.inr (Or.inl (by omega))))
  · have hsp : (c.set .esi (BitVec.ofNat 32 L.doneMessage)).sp = c.sp := rfl
    rw [hsp] at hin
    exact hx (mem_bootScratch_of_stack (by omega) (by omega))

/-- **From the entry to stage 2.** If every read succeeds, the boot sector gets to protected mode
and to the jump behind it, with the first 16 MB of the disk at 4 MB and the stack pointer as it set
it. Nothing else has changed but the memory of the boot sector. -/
theorem boot_enters (hentry : BootEntry L drive s₀)
    (hdisk : ReadsDisk int13 disk sectors drive ok) (hsectors : 128 * 256 ≤ sectors)
    (hok : ∀ i < 256, ok i = true) :
    ∃ es s t, run (BootSector.step L int13) s₀ es = some s ∧ s.place = .protectedMode ∧
      protectedMode L s.cpu = some t ∧ t.sp = 0x9000 ∧
      Copied L disk s₀.cpu.mem t.mem (0x10000 * 256) := by
  obtain ⟨es, s, hrun, hinv, hend⟩ := exists_run_to_end hentry hdisk hsectors
  have hafter : AfterStart L disk drive s₀ s :=
    invariant_of_run (AfterStart L disk drive s₀)
      (fun _ _ _ h hs => h.step hentry hdisk hsectors hok hs) .start hrun
  obtain ⟨hplace, -, -⟩ | ⟨i, hi, -, -, hfail, -⟩ := hinv.end_cases hentry hend
  · cases hafter with
    | start => exact Place.noConfusion (hentry.place.symm.trans hplace)
    | loop | copyLoop => exact Place.noConfusion hplace
    | entered h => exact Place.noConfusion (h.symm.trans hplace)
    | @done c n hloop hv =>
      obtain ⟨d, hd, hsp, hvd, hcopied⟩ := step_done (n := n) hentry.data hloop hv
      have hmessage : IsText d.mem L.protectedMessage 21 := isText_of_holdsData hentry.data
        (fun x => hcopied.messages) (by decide) (by decide) (by decide)
      have hvd' : load32 d.mem L.video = BitVec.ofNat 32 0xb8140 := hvd
      obtain ⟨t, ht, htsp, htmem⟩ := protectedMode_spec hmessage hvd' (by decide) (by decide)
      refine ⟨es ++ [()], ⟨.protectedMode, d, n⟩, t, ?_, rfl, ht, htsp.trans hsp,
        hcopied.congr fun x hx => htmem x fun hin => hx ?_⟩
      · rw [run_append, hrun, Option.bind_some]
        exact run_cons_eq_some.mpr ⟨_, hd, rfl⟩
      · exact mem_bootScratch_of_line (by decide) (by decide) hin
  · exact absurd (hfail.symm.trans (hok i hi)) Bool.false_ne_true

end runs

end BootSector

end FrogOS
