import BlessOS.Source.Console

/-!
# Scrolling by the CRT controller, `kernel/console.c`

`scroll_up` moves the window that the controller shows through the video memory, and copies it
back to the start when the end is reached; with a region set it copies lines as `scroll_down`
does. The string instructions store through `edi` what the registers hold, and every store is
recorded with the others of the console.
-/

set_option autoImplicit false
set_option linter.dupNamespace false

namespace BlessOS.Source.ScrollUp
open BlessOS.Lib.ByteMemory BlessOS.Source.Console

def vramStart : U32 := 0xB8000
def vramEnd : U32 := 0xC0000
def screenLines : U32 := 25
def screenColumns : U32 := 80

/-- The static variables that the windows are made of, beside those of the console. -/
structure Crt where
  console : Console
  position : U32
  origin : U32
  scrEnd : U32
  top : U32
  bottom : U32

/-- The variables as they are initialised. -/
def crtInit (console : Console) : Crt where
  console := console
  position := vramStart
  origin := vramStart
  scrEnd := vramStart + screenColumns * screenLines * 2
  top := 0
  bottom := screenLines

/-- Four bytes stored through a pointer. -/
def pokel (a : Addr) (value : U32) (s : Console) : Console :=
  poke (a + 3) ((value >>> 24).setWidth 8) (poke (a + 2) ((value >>> 16).setWidth 8)
    (poke (a + 1) ((value >>> 8).setWidth 8) (poke a (value.setWidth 8) s)))

/-- `rep movsl` -/
def repMovsl : Nat → Addr → Addr → Console → Console
  | 0, _, _, s => s
  | ecx + 1, esi, edi, s => repMovsl ecx (esi + 4) (edi + 4) (pokel edi (load32 s.mem esi) s)

/-- `rep stosw` -/
def repStosw (ax : U16) : Nat → Addr → Console → Console
  | 0, _, s => s
  | ecx + 1, edi, s => repStosw ax ecx (edi + 2) (pokew edi ax s)

/-- `rep stosl` -/
def repStosl (eax : U32) : Nat → Addr → Console → Console
  | 0, _, s => s
  | ecx + 1, edi, s => repStosl eax ecx (edi + 4) (pokel edi eax s)

/-- `rep movsl` and, behind it, `rep stosw` for one line. -/
def moveLines (ecx : U32) (edi esi : Addr) (s : Console) : Console :=
  repStosw 0x0720 screenColumns.toNat (edi + 4 * ecx) (repMovsl ecx.toNat esi edi s)

/-- Four writes to the controller; the interrupts are off meanwhile. -/
def setOrigin (s : Crt) : Crt :=
  let offset := s.origin - vramStart
  let console := outb 0x0c 0x3d4 s.console
  let console := outb ((0xff &&& (offset >>> 9)).setWidth 8) 0x3d5 console
  let console := outb 0x0d 0x3d4 console
  let console := outb ((0xff &&& (offset >>> 1)).setWidth 8) 0x3d5 console
  { s with console := console }

def scrollUp (s : Crt) : Crt :=
  if s.top = 0 ∧ s.bottom = screenLines then
    let s := { s with
      position := s.position + screenColumns * 2
      origin := s.origin + screenColumns * 2
      scrEnd := s.scrEnd + screenColumns * 2 }
    let s :=
      if s.scrEnd > vramEnd then
        let s := { s with
          console := moveLines (((screenLines - 1) * screenColumns) >>> 1) vramStart s.origin s.console }
        let s := { s with scrEnd := s.scrEnd - (s.origin - vramStart) }
        let s := { s with position := s.position - (s.origin - vramStart) }
        { s with origin := vramStart }
      else
        { s with
          console := repStosl 0x07200720 (screenColumns >>> 1).toNat
            (s.scrEnd - (screenColumns <<< 1)) s.console }
    setOrigin s
  else
    { s with
      console := moveLines (((s.bottom - s.top - 1) * screenColumns) >>> 1)
        (s.origin + (screenColumns <<< 1) * s.top)
        (s.origin + (screenColumns <<< 1) * (s.top + 1)) s.console }

end BlessOS.Source.ScrollUp
