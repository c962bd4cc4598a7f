import FrogOS.BootSector

/-!
# The routines of the boot sector

What `write_string` and `read_from_disk` change, for callers. Both keep to an area of their own and
to the part of the stack below `sp`, which is what `Cpu.Returns` says. The five pushes and the call
around `int 0x13` lie between the boot sector and `0x9000`, so that the BIOS call in the middle
cannot reach them; `ReadsSectors` goes outwards from the call, one pair of a push and a pop at a
time.

## Main definitions

* `Flat`, `PacketReady` — the segments and the packet as the code expects them
* `ReadsSectors` — code that reads the sectors from number `ecx` on

## Main results

* `writeString_spec` — a line on the screen
* `readNext_spec` — one read, for the number of the read
-/

namespace FrogOS

open ByteMemory RealMode StepSystem

namespace BootSector

/-! ### The data of the boot sector -/

/-- A string of `n` letters at `a`. -/
def IsText (m : ByteMemory) (a n : ℕ) : Prop := (∀ i < n, m (a + i) ≠ 0) ∧ m (a + n) = 0

theorem IsText.congr {m m' : ByteMemory} {a n : ℕ} (h : IsText m a n)
    (hm : ∀ x, a ≤ x → x ≤ a + n → m' x = m x) : IsText m' a n := by
  constructor
  · intro i hi
    rw [hm _ (by omega) (by omega)]
    exact h.1 i hi
  · rw [hm _ (by omega) le_rfl]
    exact h.2

/-- The segments as the code expects them, with 4 GB behind `gs`. -/
structure Flat (c : Cpu) : Prop where
  ds : c.seg .ds = 0
  ss : c.seg .ss = 0
  gs : c.seg .gs = 0
  limit_ds : c.limit .ds = 2 ^ 16
  limit_ss : c.limit .ss = 2 ^ 16
  limit_fs : c.limit .fs = 2 ^ 16
  limit_gs : c.limit .gs = 2 ^ 32

theorem Flat.congr {c t : Cpu} (h : Flat c) (hseg : t.seg = c.seg) (hlimit : t.limit = c.limit) :
    Flat t := by
  obtain ⟨h₁, h₂, h₃, h₄, h₅, h₆, h₇⟩ := h
  constructor <;> first | rwa [hseg] | rwa [hlimit]

/-! ### `write_string` -/

theorem toNat_ofNat_of_lt {a : ℕ} (h : a < 2 ^ 32) : (BitVec.ofNat 32 a).toNat = a := by
  rw [BitVec.toNat_ofNat]
  exact Nat.mod_eq_of_lt h

/-- The zero at the end. -/
theorem writeLetters_of_zero {c : Cpu} (fuel : ℕ)
    (hread : c.read8 .ds (c.reg .esi + c.reg .ebx) = some 0) :
    ∃ t, writeLetters (fuel + 1) c = some t ∧ t.reg .edi = c.reg .edi ∧
      Cpu.Returns ∅ (2 ^ 16) c t := by
  have hlow := c.low8_setLow8 .eax 0
  have hedi : (c.setLow8 .eax 0).reg .edi = c.reg .edi := Cpu.set_reg_of_ne (by decide) _
  exact ⟨(c.setLow8 .eax 0).cmp (((c.setLow8 .eax 0).low8 .eax).setWidth 32) 0,
    Option.bind_eq_some_iff.mpr ⟨_, hread, if_pos hlow⟩, hedi, rfl, rfl, rfl, fun _ _ _ => rfl⟩

/-- A letter. -/
theorem writeLetters_of_ne {p : ℕ} {c : Cpu} {al : BitVec 8} (fuel : ℕ) (hne : al ≠ 0)
    (hread : c.read8 .ds (c.reg .esi + c.reg .ebx) = some al) (hflat : Flat c)
    (hp : (c.reg .edi + c.reg .ebx * 2).toNat = p) (hfit : p + 2 ≤ 2 ^ 32) :
    ∃ d, writeLetters (fuel + 1) c = writeLetters fuel d ∧ d.reg .edi = c.reg .edi ∧
      d.reg .esi = c.reg .esi ∧ d.reg .ebx = c.reg .ebx + 1 ∧
      Cpu.Returns (Set.Ico p (p + 2)) (2 ^ 16) c d := by
  have hlow := c.low8_setLow8 .eax al
  generalize hc' : (c.setLow8 .eax al).cmp (((c.setLow8 .eax al).low8 .eax).setWidth 32) 0 = c'
  have hreg : ∀ r, r ≠ .eax → c'.reg r = c.reg r := by
    rintro r hr
    rw [← hc']
    exact Cpu.set_reg_of_ne hr _
  have hret : Cpu.Returns ∅ (2 ^ 16) c c' := by
    rw [← hc']
    exact ⟨rfl, rfl, rfl, fun _ _ _ => rfl⟩
  have hmem : c'.mem = c.mem := by
    rw [← hc']
    rfl
  have hflat' := hflat.congr hret.seg hret.limit
  have hwrite : c'.write .gs (c'.reg .edi + c'.reg .ebx * 2) (bytes16 (c'.low16 .eax))
      = some { c' with mem := storeBytes c'.mem p (bytes16 (c'.low16 .eax)) } := by
    rw [hreg .edi (by decide), hreg .ebx (by decide),
      Cpu.write_of_zero _ hflat'.gs (by rw [hp, hflat'.limit_gs]; exact hfit), hp]
  refine ⟨Cpu.inc { c' with mem := storeBytes c'.mem p (bytes16 (c'.low16 .eax)) } .ebx, ?_,
    hreg .edi (by decide), hreg .esi (by decide), ?_, hret.sp, hret.seg, hret.limit,
    fun x hx _ => ?_⟩
  · have hal : c'.low8 .eax ≠ 0 := by
      rw [← hc']
      exact fun h => hne (hlow.symm.trans h)
    rw [writeLetters, hread]
    simp only [Option.bind_eq_bind, Option.bind_some]
    rw [hc', if_neg hal, hwrite, Option.bind_some]
  · exact (Cpu.set_reg_self ..).trans (congrArg (· + 1) (hreg .ebx (by decide)))
  · have hout : x < p ∨ p + (bytes16 (c'.low16 .eax)).length ≤ x := by
      rw [Set.mem_Ico] at hx
      rw [show (bytes16 (c'.low16 .eax)).length = 2 from rfl]
      omega
    exact (storeBytes_of_outside hout).trans (congrFun hmem x)

/-- The letters from number `j` on go to the screen at `v`. -/
theorem writeLetters_spec {a n v : ℕ} (ha : a + n < 2 ^ 16) (hv : 2 ^ 16 ≤ v)
    (hv' : v + 2 * n < 2 ^ 32) : ∀ {fuel j : ℕ} {c : Cpu}, Flat c → IsText c.mem a n →
      c.reg .esi = BitVec.ofNat 32 a → c.reg .edi = BitVec.ofNat 32 v →
      c.reg .ebx = BitVec.ofNat 32 j → j ≤ n → n - j < fuel →
      ∃ t, writeLetters fuel c = some t ∧ t.reg .edi = BitVec.ofNat 32 v ∧
        Cpu.Returns (Set.Ico v (v + 2 * n)) (2 ^ 16) c t := by
  intro fuel
  induction fuel with
  | zero =>
    intro j c _ _ _ _ _ _ hfuel
    exact absurd hfuel (Nat.not_lt_zero _)
  | succ fuel ih =>
    intro j c hflat htext hesi hedi hebx hj hfuel
    have hoff : (c.reg .esi + c.reg .ebx).toNat = a + j := by
      rw [hesi, hebx, ← BitVec.ofNat_add]
      exact toNat_ofNat_of_lt (by omega)
    have hread : c.read8 .ds (c.reg .esi + c.reg .ebx) = some (c.mem (a + j)) := by
      rw [Cpu.read8_of_zero hflat.ds (by rw [hoff, hflat.limit_ds]; omega), hoff]
    rcases hj.eq_or_lt with rfl | hlt
    · rw [htext.2] at hread
      obtain ⟨t, ht, hedi', hret⟩ := writeLetters_of_zero fuel hread
      exact ⟨t, ht, hedi'.trans hedi, hret.mono (Set.empty_subset _) le_rfl⟩
    · have hdest : (c.reg .edi + c.reg .ebx * 2).toNat = v + 2 * j := by
        have htwo : (2 : BitVec 32).toNat = 2 := rfl
        rw [hedi, hebx, BitVec.toNat_add, BitVec.toNat_mul, toNat_ofNat_of_lt (by omega),
          toNat_ofNat_of_lt (by omega), htwo]
        omega
      obtain ⟨d, hd, hedi', hesi', hebx', hret⟩ :=
        writeLetters_of_ne fuel (htext.1 j hlt) hread hflat hdest (by omega)
      have hsp := c.sp.isLt
      have htext' : IsText d.mem a n := htext.congr fun x _ hx =>
        hret.mem x (fun hin => by have := hin.1; omega) (by omega)
      obtain ⟨t, ht, hedi'', hret'⟩ := ih (j := j + 1) (hflat.congr hret.seg hret.limit) htext'
        (hesi'.trans hesi) (hedi'.trans hedi)
        (by rw [hebx', hebx]; exact (BitVec.ofNat_add j 1).symm) hlt (by omega)
      have hsub : Set.Ico (v + 2 * j) (v + 2 * j + 2) ⊆ Set.Ico v (v + 2 * n) :=
        Set.Ico_subset_Ico (by omega) (by omega)
      exact ⟨t, hd.trans ht, hedi'', (hret.mono hsub le_rfl).trans hret'⟩

/-- What `write_string` may change: the screen from `v` on, and `video`. -/
def messageArea (L : BootLabels) (v n : ℕ) : Set ℕ :=
  Set.Ico v (v + 2 * n) ∪ Set.Ico L.video (L.video + 4)

section routines

variable {L : BootLabels} {c : Cpu} {a n v : ℕ}

theorem toNat_video : (BitVec.ofNat 32 L.video).toNat = L.video := by
  have hle := L.message_le
  exact toNat_ofNat_of_lt (by rw [BootLabels.video]; omega)

/-- A string is written to the line at `v`, and `video` goes on to the next line. -/
theorem writeString_spec (hflat : Flat c) (htext : IsText c.mem a n)
    (hesi : c.reg .esi = BitVec.ofNat 32 a) (hvideo : load32 c.mem L.video = BitVec.ofNat 32 v)
    (ha : a + n < 2 ^ 16) (hv : 2 ^ 16 ≤ v) (hv' : v + 2 * n < 2 ^ 32) :
    ∃ t, writeString L c = some t ∧ load32 t.mem L.video = BitVec.ofNat 32 (v + 160) ∧
      Cpu.Returns (messageArea L v n) (2 ^ 16) c t := by
  have hle := L.message_le
  have hlt : L.video + 4 ≤ 2 ^ 16 := by rw [BootLabels.video]; omega
  have hread : c.read32 .ds (BitVec.ofNat 32 L.video) = some (BitVec.ofNat 32 v) := by
    rw [Cpu.read32_of_zero hflat.ds (by rw [toNat_video, hflat.limit_ds]; exact hlt), toNat_video,
      hvideo]
  -- the registers as the loop needs them
  let d := ((c.set .edi (BitVec.ofNat 32 v)).xorSelf .ebx).setHigh8 .eax 0x0f
  have hret : Cpu.Returns ∅ (2 ^ 16) c d := ⟨rfl, rfl, rfl, fun _ _ _ => rfl⟩
  have hfuel : n - 0 < d.limit .ds := by
    rw [show d.limit = c.limit from rfl, hflat.limit_ds]
    omega
  obtain ⟨t, ht, hedi, hletters⟩ := writeLetters_spec ha hv hv' (hflat.congr hret.seg hret.limit)
    (j := 0) (c := d) htext hesi rfl rfl (Nat.zero_le n) hfuel
  have hflat' := (hflat.congr hret.seg hret.limit).congr hletters.seg hletters.limit
  have hnext : (t.add .edi 160).reg .edi = BitVec.ofNat 32 (v + 160) := by
    have hadd : (t.add .edi 160).reg .edi = t.reg .edi + 160 := t.set_reg_self .edi _
    rw [hadd, hedi]
    exact (BitVec.ofNat_add v 160).symm
  have hwrite : (t.add .edi 160).write .ds (BitVec.ofNat 32 L.video)
      (bytes32 ((t.add .edi 160).reg .edi)) = some
        { t.add .edi 160 with mem := store32 t.mem L.video (BitVec.ofNat 32 (v + 160)) } := by
    have hfit : (BitVec.ofNat 32 L.video).toNat + (bytes32 ((t.add .edi 160).reg .edi)).length
        ≤ (t.add .edi 160).limit .ds := by
      rw [toNat_video, length_bytes32]
      exact le_of_le_of_eq hlt hflat'.limit_ds.symm
    rw [Cpu.write_of_zero (c := t.add .edi 160) _ hflat'.ds hfit, toNat_video, hnext]
    rfl
  have hd : writeLetters (d.limit .ds) d = some t := ht
  refine ⟨_, Option.bind_eq_some_iff.mpr ⟨_, hread, Option.bind_eq_some_iff.mpr
    ⟨_, hd, hwrite⟩⟩, load32_store32 .., hletters.sp, hletters.seg, hletters.limit,
    fun x hx hs => ?_⟩
  rw [messageArea, Set.mem_union, not_or] at hx
  have hout : x < L.video ∨ L.video + 4 ≤ x := by
    have := hx.2
    rw [Set.mem_Ico] at this
    omega
  exact (store32_of_outside hout).trans (hletters.mem x hx.1 hs)

end routines

/-! ### `read_from_disk` -/

/-- What the read needs besides the number of the sector: the drive, and the packet with the upper
half of the number zero. -/
structure PacketReady (L : BootLabels) (drive : BitVec 8) (m : ByteMemory) : Prop where
  drive_eq : m L.driveNumber = drive
  header : ∀ i (h : i < dapHeader.length), m (L.dap + i) = dapHeader[i]
  high : load32 m (L.dap + 12) = 0

/-- Only the lower half of the number may change. -/
theorem PacketReady.congr {L : BootLabels} {drive : BitVec 8} {m m' : ByteMemory}
    (h : PacketReady L drive m)
    (hm : ∀ x, L.driveNumber ≤ x → x < L.dap + 16 → ¬ (L.dap + 8 ≤ x ∧ x < L.dap + 12) →
      m' x = m x) : PacketReady L drive m' := by
  have hdap : L.dap = L.driveNumber + 1 := rfl
  have hlen : dapHeader.length = 8 := rfl
  constructor
  · rw [hm _ le_rfl (by omega) (by omega)]
    exact h.drive_eq
  · intro i hi
    rw [hm _ (by omega) (by omega) (by omega)]
    exact h.header i hi
  · rw [load32_congr fun i hi => hm (L.dap + 12 + i) (by omega) (by omega) (by omega)]
    exact h.high

/-- What a read may change: the buffer and the number of the sector, and the packet if it fails. -/
def readArea (L : BootLabels) (success : Bool) : Set ℕ :=
  diskBuffer ∪ if success = true then Set.Ico (L.dap + 8) (L.dap + 12)
    else Set.Ico L.dap (L.dap + 16)

/-- The area is not on the stack. -/
theorem lt_or_le_of_mem_readArea {L : BootLabels} {success : Bool} (c : Cpu) :
    ∀ x ∈ readArea L success, x < 0x7e00 ∨ c.sp.toNat ≤ x := by
  have hle := L.message_le
  have hdap : L.dap = L.message + 127 := rfl
  have hsp := c.sp.isLt
  intro x hx
  rcases hx with hbuf | hpacket
  · exact Or.inr (hsp.le.trans hbuf.1)
  · left
    split at hpacket <;> have := hpacket.2 <;> omega

/-- The processor before a read that pushes `n` bytes. -/
structure ReadReady (L : BootLabels) (drive : BitVec 8) (n : ℕ) (c : Cpu) : Prop where
  flat : Flat c
  packet : PacketReady L drive c.mem
  room : 0x7e00 + n ≤ c.sp.toNat

/-- Code that reads the 128 sectors from number `ecx` on, with `n` bytes of stack. -/
def ReadsSectors (L : BootLabels) (disk : ℕ → BitVec 8) (sectors : ℕ) (drive : BitVec 8)
    (success : Bool) (f : Cpu → Option Cpu) (n : ℕ) : Prop :=
  ∀ c, ReadReady L drive n c → (c.reg .ecx).toNat + 128 ≤ sectors →
    ∃ t, f c = some t ∧ t.cf = !success ∧
      (success = true → ∀ k < 128 * 512, t.mem (0x10000 + k) =
        disk (512 * (c.reg .ecx).toNat + k)) ∧
      Cpu.Returns (readArea L success) 0x7e00 c t

section reads

variable {L : BootLabels} {disk : ℕ → BitVec 8} {sectors : ℕ} {drive : BitVec 8} {success : Bool}
  {f : Cpu → Option Cpu} {n : ℕ}

theorem not_mem_sector_of_not_mem_readArea {x : ℕ} (h : x ∉ readArea L success) :
    x < L.dap + 8 ∨ L.dap + 8 + 4 ≤ x := by
  rw [readArea, Set.mem_union, not_or] at h
  have hpacket := h.2
  split at hpacket <;> rw [Set.mem_Ico] at hpacket <;> omega

/-- The call of the BIOS, as the code makes it. -/
theorem asksFor_of_packetReady {c t : Cpu} (hds : t.seg .ds = 0) (hah : t.high8 .eax = 0x42)
    (hdl : t.low8 .edx = drive) (hsi : t.low16 .esi = BitVec.ofNat 16 L.dap)
    (hmem : t.mem = store32 c.mem (L.dap + 8) (c.reg .ecx)) (h : PacketReady L drive c.mem) :
    AsksFor t drive L.dap (c.reg .ecx).toNat := by
  have hle := L.message_le
  have hdap : L.dap = L.message + 127 := rfl
  have hlen : dapHeader.length = 8 := rfl
  refine ⟨hah, hdl, ?_, ?_, ?_⟩
  · have hzero : (0 : BitVec 16).toNat = 0 := rfl
    rw [hds, hsi, BitVec.toNat_ofNat, hzero, Nat.mod_eq_of_lt (by omega), Nat.zero_mul,
      Nat.zero_add]
  · intro i hi
    rw [hmem, store32_of_outside (by omega)]
    exact h.header i hi
  · have hhigh : load32 t.mem (L.dap + 8 + 4) = 0 := by
      rw [hmem, load32_store32_of_disjoint (by omega)]
      exact h.high
    have hzero : (0 : BitVec 32).toNat = 0 := rfl
    rw [load64_eq_append, hhigh, hmem, load32_store32, BitVec.toNat_append, hzero,
      Nat.zero_shiftLeft, Nat.zero_or]

theorem readsSectors_readBody {int13 : Cpu → Cpu}
    (hdisk : ∀ c p lba, lba + 128 ≤ sectors → AsksFor c drive p lba →
      ReadResult disk success c p lba (int13 c)) :
    ReadsSectors L disk sectors drive success (readBody L int13) 0 := by
  rintro c ⟨hflat, hready, -⟩ hinside
  have hle := L.message_le
  have hdap : L.dap = L.message + 127 := rfl
  have hdrive : L.driveNumber = L.message + 126 := rfl
  have hp : (BitVec.ofNat 32 (L.dap + 8)).toNat = L.dap + 8 := toNat_ofNat_of_lt (by omega)
  have hq : (BitVec.ofNat 32 L.driveNumber).toNat = L.driveNumber :=
    toNat_ofNat_of_lt (by omega)
  let c₁ : Cpu := { c with mem := store32 c.mem (L.dap + 8) (c.reg .ecx) }
  have hwrite : c.write .ds (BitVec.ofNat 32 (L.dap + 8)) (bytes32 (c.reg .ecx)) = some c₁ := by
    rw [Cpu.write_of_zero _ hflat.ds (by rw [hp, length_bytes32, hflat.limit_ds]; omega), hp]
    rfl
  have hread : c₁.read8 .ds (BitVec.ofNat 32 L.driveNumber) = some drive := by
    rw [Cpu.read8_of_zero (c := c₁) hflat.ds
      (by rw [hq]; exact le_of_le_of_eq (by omega) hflat.limit_ds.symm), hq]
    exact congrArg some ((store32_of_outside (by omega)).trans hready.drive_eq)
  -- the processor at `int 0x13`
  let d := (((c₁.setLow8 .edx drive).setHigh8 .eax 0x42).setLow16 .ebx 0x55aa).setLow16 .esi
    (BitVec.ofNat 16 L.dap)
  have hah : d.high8 .eax = 0x42 := (c₁.setLow8 .edx drive).high8_setHigh8 .eax 0x42
  have hdl : d.low8 .edx = drive := c₁.low8_setLow8 .edx drive
  have hsi : d.low16 .esi = BitVec.ofNat 16 L.dap := Cpu.low16_setLow16 ..
  have hresult := hdisk d L.dap _ hinside (asksFor_of_packetReady hflat.ds hah hdl hsi rfl hready)
  refine ⟨int13 d, Option.bind_eq_some_iff.mpr ⟨_, hwrite, Option.bind_eq_some_iff.mpr
    ⟨_, hread, rfl⟩⟩, hresult.cf, hresult.buffer, hresult.sp, hresult.seg, hresult.limit,
    fun x hx hs => ?_⟩
  have hstack : ¬ (0x7e00 ≤ x ∧ x < (d.seg .ss).toNat * 16 + d.sp.toNat) := by
    have hss : d.seg .ss = 0 := hflat.ss
    have hzero : (0 : BitVec 16).toNat = 0 := rfl
    rw [hss, hzero, Nat.zero_mul, Nat.zero_add]
    exact hs
  have hpacket : success = true ∨ ¬ (L.dap ≤ x ∧ x < L.dap + 16) := by
    cases success with
    | true => exact Or.inl rfl
    | false => exact Or.inr fun hin => hx (Or.inr hin)
  have hbuffer : x ∉ diskBuffer := fun hin => hx (Or.inl hin)
  exact (hresult.mem x hbuffer hstack hpacket).trans
    (store32_of_outside (not_mem_sector_of_not_mem_readArea hx))

theorem ReadReady.stackRoom {c : Cpu} (h : ReadReady L drive n c) :
    Cpu.StackRoom 0x7e00 c n :=
  ⟨h.flat.ss, h.flat.limit_ss, h.room⟩

theorem ReadReady.pushed {c : Cpu} {bs : List (BitVec 8)}
    (h : ReadReady L drive (n + bs.length) c) : ReadReady L drive n (c.pushed bs) := by
  have hle := L.message_le
  have hdap : L.dap = L.message + 127 := rfl
  have hroom := h.room
  refine ⟨h.flat.congr rfl rfl, h.packet.congr fun x _ hx _ => ?_, ?_⟩
  · exact storeBytes_of_outside (by omega)
  · rw [Cpu.toNat_pushed_sp (by omega)]
    omega

/-- A register saved around the read. -/
theorem ReadsSectors.saved (h : ReadsSectors L disk sectors drive success f n) (r : Reg) :
    ReadsSectors L disk sectors drive success (Cpu.saved r f) (n + 4) := by
  intro c hready hinside
  have hready' : ReadReady L drive n (c.pushed (bytes32 (c.reg r))) :=
    ReadReady.pushed (by rwa [length_bytes32])
  obtain ⟨t, ht, hcf, hbuffer, hret⟩ := h _ hready' hinside
  obtain ⟨u, hu, -, hucf, humem, huret⟩ :=
    hret.saved (hready.stackRoom.mono (Nat.le_add_left 4 n)) (lt_or_le_of_mem_readArea c) ht
  refine ⟨u, hu, hucf.trans hcf, fun hs k hk => ?_, huret⟩
  rw [humem]
  exact hbuffer hs k hk

/-- The read in a routine. -/
theorem ReadsSectors.call (h : ReadsSectors L disk sectors drive success f n) (ret : BitVec 16) :
    ReadsSectors L disk sectors drive success (Cpu.call ret f) (n + 2) := by
  intro c hready hinside
  have hready' : ReadReady L drive n (c.pushed (bytes16 ret)) := hready.pushed
  obtain ⟨t, ht, hcf, hbuffer, hret⟩ := h _ hready' hinside
  obtain ⟨u, hu, -, hucf, humem, huret⟩ :=
    hret.call (hready.stackRoom.mono (Nat.le_add_left 2 n)) (lt_or_le_of_mem_readArea c) ht
  refine ⟨u, hu, hucf.trans hcf, fun hs k hk => ?_, huret⟩
  rw [humem]
  exact hbuffer hs k hk

/-- Read number `j`. The number is in `ecx` again at the end. -/
theorem readNext_spec {int13 : Cpu → Cpu}
    (hdisk : ∀ c p lba, lba + 128 ≤ sectors → AsksFor c drive p lba →
      ReadResult disk success c p lba (int13 c))
    (hsectors : 128 * 256 ≤ sectors) {c : Cpu} {j : ℕ} (hj : j < 256)
    (hecx : c.reg .ecx = BitVec.ofNat 32 j)
    (hready : ReadReady L drive 22 c) :
    ∃ t, readNext L int13 c = some t ∧ t.reg .ecx = BitVec.ofNat 32 j ∧ t.cf = !success ∧
      (success = true → ∀ k < 0x10000, t.mem (0x10000 + k) = disk (0x10000 * j + k)) ∧
      Cpu.Returns (readArea L success) 0x7e00 c t := by
  have hbody := readsSectors_readBody (L := L) hdisk
  have hroutine := ((((hbody.saved .esi).saved .edx).saved .ecx).saved .ebx).call L.readRet
  -- the processor at the call
  let d := (c.pushed (bytes32 (c.reg .ecx))).shl .ecx 7
  have hpushed : ReadReady L drive 18 (c.pushed (bytes32 (c.reg .ecx))) := hready.pushed
  have hd : ReadReady L drive 18 d := ⟨hpushed.flat.congr rfl rfl, hpushed.packet, hpushed.room⟩
  have hlba : 512 * (d.reg .ecx).toNat = 0x10000 * j := by
    have hshl : d.reg .ecx = c.reg .ecx <<< 7 := rfl
    rw [hshl, hecx, BitVec.toNat_shiftLeft, toNat_ofNat_of_lt (by omega), Nat.shiftLeft_eq,
      Nat.mod_eq_of_lt (by omega)]
    omega
  obtain ⟨t, ht, hcf, hbuffer, hret⟩ := hroutine d hd (by omega)
  have hret' : Cpu.Returns (readArea L success) 0x7e00 (c.pushed (bytes32 (c.reg .ecx))) t :=
    ⟨hret.sp, hret.seg, hret.limit, hret.mem⟩
  obtain ⟨u, hu, hureg, hucf, humem, huret⟩ :=
    hret'.saved (f := fun c => (c.shl .ecx 7).call L.readRet (readFromDisk L int13))
      (hready.stackRoom.mono (by omega)) (lt_or_le_of_mem_readArea c) ht
  refine ⟨u, hu, ?_, hucf.trans hcf, fun hs k hk => ?_, huret⟩
  · rw [hureg, Function.update_self]
    exact hecx
  · rw [humem, hbuffer hs k hk, hlba]

end reads

end BootSector

end FrogOS
