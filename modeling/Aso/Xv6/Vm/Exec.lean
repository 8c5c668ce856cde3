import Aso.Xv6.Vm.Pagetable

/-! The user image: `exec` with the loading of an ELF file, `inituvm`, and copying
into an address space. A file is what `readi` returns for an offset and a length;
fewer bytes than asked for is every kind of failure. -/
namespace Aso.Xv6.Vm

/-- `readi(ip, _, off, n)`: the bytes read. -/
abbrev File := Nat → Nat → List UInt8

def Mem.write (m : Mem) (f off : Nat) (data : List UInt8) : Mem :=
  m.fill f ((m.page f).write off data)

/-- The loop of `loaduvm` over `n` pages, `i` bytes into the segment. -/
def loadLoop (d : Pgdir) (addr : Nat) (file : File) (offset sz : Nat) :
    Nat → Mem → Nat → Except Panic (Bool × Mem)
  | 0, m, _ => .ok (true, m)
  | n + 1, m, i =>
    match d.table (pdx ((addr + i) % 2 ^ 32)) with
    | none => .error .loadExist
    | some t =>
      -- an entry that is not present has physical address zero
      let f := ((t.pte (ptx ((addr + i) % 2 ^ 32))).map Pte.frame).getD 0
      let want := min (sz - i) pgsize
      let bytes := (file ((offset + i) % 2 ^ 32) want).take want
      let m := m.write f 0 bytes
      if bytes.length = want then loadLoop d addr file offset sz n m (i + pgsize)
      else .ok (false, m)

def loaduvm (m : Mem) (d : Pgdir) (addr : Nat) (file : File) (offset sz : Nat) :
    Except Panic (Bool × Mem) :=
  if addr % pgsize ≠ 0 then .error .loadAligned
  else loadLoop d addr file offset sz ((sz + (pgsize - 1)) / pgsize) m 0

/-- Load the initial code into page zero. -/
def inituvm (m : Mem) (d : Pgdir) (init : List UInt8) : Except Panic (Pgdir × Mem) :=
  if init.length ≥ pgsize then .error .inituvm
  else match m.kalloc with
    | none => .error .inituvm
    | some (f, m) => do
      let (_, d, m) ← mappages (m.fill f .zero) d 0 pgsize f true true
      .ok (d, m.write f 0 init)

/-- The page behind a user address; null when it is not there or not for users. -/
def uva2ka (d : Pgdir) (va : Nat) : Except Panic (Option Nat) :=
  match d.table (pdx va) with
  | none => .error .nullPte
  | some t =>
    match t.pte (ptx va) with
    | none => .ok none
    | some e => .ok (if e.u then some e.frame else none)

/-- The loop of `copyout`; every round copies at least one byte. -/
def copyoutLoop (d : Pgdir) : Nat → Mem → Nat → List UInt8 → Except Panic (Bool × Mem)
  | 0, m, _, _ => .ok (true, m)
  | left + 1, m, va, buf =>
    if buf = [] then .ok (true, m)
    else do
      match ← uva2ka d (pgrounddown va) with
      | none => .ok (false, m)
      | some f =>
        let off := va - pgrounddown va
        let n := min (pgsize - off) buf.length
        copyoutLoop d left (m.write f off (buf.take n)) ((pgrounddown va + pgsize) % 2 ^ 32)
          (buf.drop n)

def copyout (m : Mem) (d : Pgdir) (va : Nat) (buf : List UInt8) : Except Panic (Bool × Mem) :=
  copyoutLoop d buf.length m va buf

def field (bytes : List UInt8) (off len : Nat) : Nat := leNat ((bytes.drop off).take len)

/-- The fields of `struct elfhdr` and `struct proghdr` that `exec` uses. -/
structure Elfhdr where
  magic : Nat
  entry : Nat
  phoff : Nat
  phnum : Nat

structure Proghdr where
  type : Nat
  off : Nat
  vaddr : Nat
  filesz : Nat
  memsz : Nat

def elfMagic : Nat := 0x464C457F
def elfProgLoad : Nat := 1
def elfhdrSize : Nat := 52
def proghdrSize : Nat := 32

def Elfhdr.decode (bytes : List UInt8) : Elfhdr :=
  ⟨field bytes 0 4, field bytes 24 4, field bytes 28 4, field bytes 44 2⟩

def Proghdr.decode (bytes : List UInt8) : Proghdr :=
  ⟨field bytes 0 4, field bytes 4 4, field bytes 8 4, field bytes 16 4, field bytes 20 4⟩

/-- The loop of `exec` over the program headers; no size is the jump to `bad`. -/
def loadSegments (k : Kernel) (file : File) :
    Nat → Mem → Pgdir → Nat → Nat → Except Panic (Option Nat × Pgdir × Mem)
  | 0, m, d, sz, _ => .ok (some sz, d, m)
  | n + 1, m, d, sz, off =>
    let bytes := file off proghdrSize
    let ph := Proghdr.decode bytes
    let next := (off + proghdrSize) % 2 ^ 32
    if bytes.length ≠ proghdrSize then .ok (none, d, m)
    else if ph.type ≠ elfProgLoad ∨ ph.memsz = 0 then loadSegments k file n m d sz next
    else if ph.memsz < ph.filesz then .ok (none, d, m)
    else if (ph.vaddr + ph.memsz) % 2 ^ 32 < ph.vaddr then .ok (none, d, m)
    else do
      let (sz, d, m) ← allocuvm k m d sz ((ph.vaddr + ph.memsz) % 2 ^ 32)
      if sz = 0 then .ok (none, d, m)
      else if ph.vaddr % pgsize ≠ 0 then .ok (none, d, m)
      else do
        let (loaded, m) ← loaduvm m d ph.vaddr file ph.off ph.filesz
        if loaded then loadSegments k file n m d sz next else .ok (none, d, m)

/-- Push the argument strings below `sp`; the result has the stack pointer and the
addresses of the strings, or none when `exec` jumps to `bad`. -/
def pushArgs (d : Pgdir) :
    Nat → List (List UInt8) → Mem → Nat → Except Panic (Option (Nat × List Nat) × Mem)
  | _, [], m, sp => .ok (some (sp, []), m)
  | argc, arg :: rest, m, sp =>
    if argc ≥ maxArg then .ok (none, m)
    else do
      let sp := (sp + 2 ^ 32 - (arg.length + 1) % 2 ^ 32) % 2 ^ 32 / 4 * 4
      let (copied, m) ← copyout m d sp (arg ++ [0])
      if copied then
        match ← pushArgs d (argc + 1) rest m sp with
        | (none, m) => .ok (none, m)
        | (some (top, addrs), m) => .ok (some (top, sp :: addrs), m)
      else .ok (none, m)

/-- Build the stack of the new image: the arguments, then the fake return
address, `argc`, `argv` and the argument pointers. The result is the stack pointer. -/
def buildStack (m : Mem) (d : Pgdir) (sz : Nat) (argv : List (List UInt8)) :
    Except Panic (Option Nat × Mem) := do
  match ← pushArgs d 0 argv m sz with
  | (none, m) => .ok (none, m)
  | (some (sp, addrs), m) =>
    let argc := addrs.length
    let ustack := [0xffffffff, argc, (sp + 2 ^ 32 - (argc + 1) * 4) % 2 ^ 32] ++ addrs ++ [0]
    let sp := (sp + 2 ^ 32 - (3 + argc + 1) * 4) % 2 ^ 32
    let (copied, m) ← copyout m d sp (ustack.flatMap (toLe 4))
    .ok (if copied then some sp else none, m)

/-- The part of `struct proc` that describes the user image. `guard` is no field of
the source: it records the address that `clearpteu` was called with for this image. -/
structure Image where
  pgdir : Pgdir
  sz : Nat
  inicioPaginaGuarda : Nat
  name : List UInt8
  eip : Nat
  esp : Nat
  guard : Option Nat

/-- The last component of a path. -/
def lastName (path : List UInt8) : List UInt8 := (path.reverse.takeWhile (· ≠ 47)).reverse

/-- The rest of `exec` once the segments are loaded up to `sz`. -/
def finishExec (k : Kernel) (m : Mem) (p : Image) (d : Pgdir) (sz : Nat) (path : List UInt8)
    (entry : Nat) (argv : List (List UInt8)) : Except Panic (Bool × Image × Mem) := do
  let start := pgroundup sz
  let p := { p with inicioPaginaGuarda := start }
  let extra := (start / pgsize + 1) * pgsize
  match ← allocuvm k m d start ((start + extra) % 2 ^ 32) with
  | (0, d, m) => do
    let m ← freevm k m d
    .ok (false, p, m)
  | (sz, d, m) => do
    let guard := (sz + 2 ^ 32 - extra) % 2 ^ 32
    let d ← clearpteu d guard
    match ← buildStack m d sz argv with
    | (none, m) => do
      let m ← freevm k m d
      .ok (false, p, m)
    | (some sp, m) => do
      let m ← freevm k m p.pgdir
      .ok (true, { p with
        pgdir := d, sz := sz, name := (lastName path).take 15, eip := entry, esp := sp, guard :=
          some guard }, m)

/-- `exec`; there is no file when `namei` fails. -/
def exec (k : Kernel) (m : Mem) (p : Image) (path : List UInt8) (file : Option File)
    (argv : List (List UInt8)) : Except Panic (Bool × Image × Mem) :=
  match file with
  | none => .ok (false, p, m)
  | some file =>
    let bytes := file 0 elfhdrSize
    let elf := Elfhdr.decode bytes
    if bytes.length ≠ elfhdrSize then .ok (false, p, m)
    else if elf.magic ≠ elfMagic then .ok (false, p, m)
    else do
      match ← setupkvm k m with
      | (none, m) => .ok (false, p, m)
      | (some d, m) =>
        match ← loadSegments k file elf.phnum m d 0 elf.phoff with
        | (none, d, m) => do
          let m ← freevm k m d
          .ok (false, p, m)
        | (some sz, d, m) => finishExec k m p d sz path elf.entry argv

end Aso.Xv6.Vm
