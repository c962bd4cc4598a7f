import FrogOS.Process
import FrogOS.Lib.ByteMemory

/-!
# Register frames in memory

`struct regs`, which `process_context_t` repeats field by field, as 26 words in byte-addressed
memory: the instance of `ContextMemory` the kernel runs with. `process_create` writes a context
piecemeal, by a `memset` and six field stores, and `initContext` does it in the same steps;
`readContext_initContext` says which frame that makes.

A second instance, `FrameMap`, keeps whole frames of any type at addresses. It is what the machines
use that ask in which order things happen and not what the registers hold.

## Main results

* `readContext_saveContext`, `readContext_initContext` — reading back what was copied or built
-/

namespace FrogOS

open ByteMemory

/-- `process_context_t`, and `struct regs` under its interrupt names: `unused1` is `int_no` and
`unused2` is `err_code`. -/
structure ProcessContext where
  ds : BitVec 64
  es : BitVec 64
  fs : BitVec 64
  gs : BitVec 64
  r15 : BitVec 64
  r14 : BitVec 64
  r13 : BitVec 64
  r12 : BitVec 64
  r11 : BitVec 64
  r10 : BitVec 64
  r9 : BitVec 64
  r8 : BitVec 64
  rbp : BitVec 64
  rdi : BitVec 64
  rsi : BitVec 64
  rdx : BitVec 64
  rcx : BitVec 64
  rbx : BitVec 64
  rax : BitVec 64
  unused1 : BitVec 64
  unused2 : BitVec 64
  rip : BitVec 64
  cs : BitVec 64
  rflags : BitVec 64
  rsp : BitVec 64
  ss : BitVec 64
  deriving DecidableEq

namespace ProcessContext

/-- The image of a context, in the order of its fields. -/
def toWords (c : ProcessContext) : List (BitVec 64) :=
  [c.ds, c.es, c.fs, c.gs, c.r15, c.r14, c.r13, c.r12, c.r11, c.r10, c.r9, c.r8, c.rbp, c.rdi,
    c.rsi, c.rdx, c.rcx, c.rbx, c.rax, c.unused1, c.unused2, c.rip, c.cs, c.rflags, c.rsp, c.ss]

def zero : ProcessContext := ⟨0, 0, 0, 0, 0, 0, 0, 0, 0, 0, 0, 0, 0, 0, 0, 0, 0, 0, 0, 0, 0, 0,
  0, 0, 0, 0⟩

/-- The context at address `p`. -/
def readContext (m : ByteMemory) (p : BitVec 64) : ProcessContext :=
  let w := loadWord m p.toNat
  ⟨w 0, w 1, w 2, w 3, w 4, w 5, w 6, w 7, w 8, w 9, w 10, w 11, w 12, w 13, w 14, w 15, w 16,
    w 17, w 18, w 19, w 20, w 21, w 22, w 23, w 24, w 25⟩

/-- `memcpy` of the image to address `p`. -/
def saveContext (m : ByteMemory) (p : BitVec 64) (c : ProcessContext) : ByteMemory :=
  storeWords m p.toNat c.toWords

/-! ### The context of a new process -/

/-- `cs` of a new process: `KERNEL_CODE_SEGMENT`, or `USER_CODE_SEGMENT | 3`. -/
def initialCs (kernelTask : Bool) : BitVec 64 := if kernelTask then 0x08 else 0x28 ||| 3

/-- `ss` of a new process: `KERNEL_DATA_SEGMENT`, or `USER_DATA_SEGMENT | 3`. -/
def initialSs (kernelTask : Bool) : BitVec 64 := if kernelTask then 0x10 else 0x20 ||| 3

/-- The `memset` and the stores to `rip` (word 21), `cs` (22), `ss` (25), `rflags` (23), `rsp` (24)
and `rdi` (13), in the order of the source. -/
def initContext (m : ByteMemory) (p : BitVec 64) (i : ContextInit) : ByteMemory :=
  let m := memset m p.toNat 0 208
  let m := storeWord m p.toNat 21 i.entryPoint
  let m := storeWord m p.toNat 22 (initialCs i.kernelTask)
  let m := storeWord m p.toNat 25 (initialSs i.kernelTask)
  let m := storeWord m p.toNat 23 0x202
  let m := storeWord m p.toNat 24 i.rsp
  storeWord m p.toNat 13 (BitVec.ofNat 64 i.pid)

/-- The frame a new process is started with: everything zero but for six registers. -/
def initialContext (i : ContextInit) : ProcessContext :=
  { zero with
    rip := i.entryPoint
    cs := initialCs i.kernelTask
    ss := initialSs i.kernelTask
    rflags := 0x202
    rsp := i.rsp
    rdi := BitVec.ofNat 64 i.pid }

theorem readContext_congr {m m' : ByteMemory} {p q : BitVec 64}
    (h : ∀ i < 26, loadWord m' q.toNat i = loadWord m p.toNat i) :
    readContext m' q = readContext m p := by
  simp (disch := omega) only [readContext, h]

@[simp] theorem readContext_saveContext (m : ByteMemory) (p : BitVec 64) (c : ProcessContext) :
    readContext (saveContext m p c) p = c := by
  have hw : ∀ i (h : i < c.toWords.length), loadWord (saveContext m p c) p.toNat i = c.toWords[i] :=
    fun i h => loadWord_storeWords h
  have hlen : c.toWords.length = 26 := rfl
  simp (disch := (rw [hlen]; omega)) only [readContext, hw]
  rfl

theorem readContext_saveContext_of_apart {m : ByteMemory} {p q : BitVec 64} {c : ProcessContext}
    (h : Apart p q) : readContext (saveContext m p c) q = readContext m q := by
  have hlen : c.toWords.length = 26 := rfl
  refine readContext_congr fun i hi => load64_storeWords_of_disjoint ?_
  rw [hlen]
  rcases h with h | h <;> omega

theorem readContext_initContext (m : ByteMemory) (p : BitVec 64) (i : ContextInit) :
    readContext (initContext m p i) p = initialContext i := by
  simp (disch := omega) only [readContext, initContext, loadWord_storeWord,
    loadWord_storeWord_of_ne, loadWord_memset_zero]
  rfl

theorem readContext_initContext_of_apart {m : ByteMemory} {p q : BitVec 64} {i : ContextInit}
    (h : Apart p q) : readContext (initContext m p i) q = readContext m q := by
  refine readContext_congr fun j hj => ?_
  have hN : p.toNat + 8 * 26 ≤ q.toNat ∨ q.toNat + 8 * 26 ≤ p.toNat := h
  have hstore : ∀ {m : ByteMemory} {k : ℕ} {w : BitVec 64}, k < 26 →
      loadWord (storeWord m p.toNat k w) q.toNat j = loadWord m q.toNat j :=
    fun hk => loadWord_storeWord_of_disjoint hk hj hN
  simp (disch := omega) only [initContext, hstore]
  exact load64_memset_of_disjoint (by omega)

/-- The memory of the machine. -/
instance : ContextMemory ByteMemory ProcessContext where
  save := saveContext
  load := readContext
  create := initContext
  initial := initialContext
  load_save := readContext_saveContext
  load_save_of_apart := readContext_saveContext_of_apart
  load_create := readContext_initContext
  load_create_of_apart := readContext_initContext_of_apart

@[simp] theorem readContext_create (m : ByteMemory) (p : BitVec 64) (i : ContextInit) :
    readContext (ContextMemory.create m p i) p = initialContext i :=
  readContext_initContext m p i

end ProcessContext

/-! ### Frames as wholes -/

/-- A memory that holds one frame of type `F` at every address, new processes starting with the
frame `init` describes. -/
structure FrameMap (F : Type) (init : ContextInit → F) where
  frameAt : BitVec 64 → F

namespace FrameMap

variable {F : Type} {init : ContextInit → F}

def set (m : FrameMap F init) (p : BitVec 64) (f : F) : FrameMap F init :=
  ⟨Function.update m.frameAt p f⟩

@[simp] theorem frameAt_set (m : FrameMap F init) (p : BitVec 64) (f : F) :
    (m.set p f).frameAt p = f := Function.update_self ..

theorem frameAt_set_of_apart {m : FrameMap F init} {p q : BitVec 64} {f : F} (h : Apart p q) :
    (m.set p f).frameAt q = m.frameAt q := Function.update_of_ne h.ne.symm ..

instance : ContextMemory (FrameMap F init) F where
  save := set
  load := frameAt
  create m p i := m.set p (init i)
  initial := init
  load_save := frameAt_set
  load_save_of_apart := frameAt_set_of_apart
  load_create m p i := frameAt_set m p (init i)
  load_create_of_apart := frameAt_set_of_apart

end FrameMap

end FrogOS
