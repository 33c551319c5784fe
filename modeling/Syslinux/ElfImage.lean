import Syslinux.ElfSymbols
import Syslinux.WordMemory

/-! Modules as they lie in memory: their symbols and tables, and global_find_symbol and what
perform_relocation looks up with it. A name longer than the fuel has no result. -/
namespace Syslinux.Elf
open WordMemory

/- The members of elf_module that are used here; addresses, and NULL for a table that is missing. -/
structure Image where
  baseAddr : Nat
  hashTable : Nat
  ghashTable : Nat
  strTable : Nat
  symTable : Nat
  symentSize : Nat
  symtableSize : Nat
  deriving DecidableEq

def stbGlobal : Nat := 1
def stbWeak : Nat := 2

/- ELF32_ST_BIND. -/
def stBind (info : Nat) : Nat := info >>> 4

/- "undefined_symbol" -/
def undefinedSymbol : Name :=
  [0x75,0x6e,0x64,0x65,0x66,0x69,0x6e,0x65,0x64,0x5f,0x73,0x79,0x6d,0x62,0x6f,0x6c]

section
variable (bits : Nat)

def moduleGetAbsolute (addr : Nat) (m : Image) : Nat := (m.baseAddr + addr) % 2^bits

def cstring (limit : Nat) (mem : Memory) (a : Nat) : Name :=
  ((List.range limit).map fun i => mem ((a+i) % 2^bits)).takeWhile (· ≠ 0)

/- symbol_get_entry; its index is an int. -/
def symbolGetEntry (m : Image) (i : Nat) : Nat :=
  let index := i*m.symentSize % 2^32
  (m.symTable + if index < 2^31 then index else index + (2^bits - 2^32)) % 2^bits

def stName (mem : Memory) (entry : Nat) : Nat := readWord bits 4 mem entry

def readSym (limit : Nat) (mem : Memory) (m : Image) (i : Nat) : Sym :=
  let entry := symbolGetEntry bits m i
  let name := cstring bits limit mem (m.strTable + stName bits mem entry)
  if bits = 64 then
    ⟨name,readWord bits 8 mem (entry+8),readWord bits 8 mem (entry+16),readWord bits 1 mem (entry+4),
      readWord bits 2 mem (entry+6)⟩
  else
    ⟨name,readWord bits 4 mem (entry+4),readWord bits 4 mem (entry+8),readWord bits 1 mem (entry+12),
      readWord bits 2 mem (entry+14)⟩

def tableAt (mem : Memory) (a : Nat) : Option Table :=
  if a = 0 then none else some fun i => UInt32.ofNat (readWord bits 4 mem ((a + 4*i) % (2^bits : Nat)).toNat)

def symbolsOf (limit : Nat) (mem : Memory) (m : Image) : Symbols where
  entry := readSym bits limit mem m
  symtableSize := m.symtableSize
  symentSize := m.symentSize
  hashTable := tableAt bits mem m.hashTable
  ghashTable := tableAt bits mem m.ghashTable

section
variable (fuel : Nat) (mem : Memory) (name : Name)

def findIn (result : Option (Image × Sym)) : List Image → Option (Option (Image × Sym))
  | [] => some result
  | m::rest => do
    let found ← moduleFindSymbol bits (symbolsOf bits fuel mem m) name fuel
    match found with
    | none => findIn result rest
    | some i =>
      let crtSym := readSym bits fuel mem m i
      if crtSym.shndx ≠ 0 then
        if stBind crtSym.info = stbGlobal then some (some (m,crtSym))
        else if stBind crtSym.info = stbWeak ∧ result = none then findIn (some (m,crtSym)) rest
        else findIn result rest
      else findIn result rest

def globalFindSymbol (modules : List Image) : Option (Option (Image × Sym)) := findIn bits fuel mem name none modules

end

/- The symbol's address and size; none inside where the relocation is refused, none where there is
not even undefined_symbol. -/
def symbolOf (fuel : Nat) (modules : List Image) (m : Image) (mem : Memory) (sym : Nat) : Option (Option (Nat × Nat)) :=
  if sym = 0 then some (some (0,0))
  else do
    let symRef := readSym bits fuel mem m sym
    if fuel ≤ symRef.name.length then none else
    match ← globalFindSymbol bits fuel mem symRef.name modules with
    | some (symModule,symDef) => some (some (moduleGetAbsolute bits symDef.value symModule,symDef.size))
    | none =>
      if stBind symRef.info ≠ stbWeak then some none
      else
        match ← globalFindSymbol bits fuel mem undefinedSymbol modules with
        | some (symModule,symDef) => some (some (moduleGetAbsolute bits symDef.value symModule,symDef.size))
        | none => none

end

end Syslinux.Elf
