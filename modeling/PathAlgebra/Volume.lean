import PathAlgebra.Dialect

/-!
# Volumes and absolute paths

Under the Windows dialect a path can start with a volume: a drive, which is an ASCII letter and
`:`, or a share, which is two slashes, a host, one slash and a share name. The host and the share
name are runs without a slash, not empty, that do not start with `.`. Under the POSIX dialect no
path has a volume. `volume` reads the volume, `volumeLength` counts its characters, and
`volumeLength_le` says that they are characters of the path.

A path is absolute when it starts at a root. A share is a root by itself; so is a reserved device
name such as `NUL`, in either letter case.
-/

set_option autoImplicit false

namespace PathAlgebra

/-- What a path starts with: no volume, a drive, or a share of a given length. -/
inductive Volume where
  | none
  | drive
  | share (length : Nat)
  deriving DecidableEq

namespace Volume

/-- The number of characters of the volume. -/
def length : Volume → Nat
  | none => 0
  | drive => 2
  | share n => n

/-- The volumes of the form host and share. -/
def isShare : Volume → Bool
  | share _ => true
  | _ => false

end Volume

/-- A host or a share name: not empty and not starting with a dot. -/
def isVolumePart : Text → Bool
  | [] => false
  | c :: _ => c != '.'

/-- The share that follows two leading slashes: a host up to a slash, and the longest share name
after it. -/
def readShare (t : Text) : Volume :=
  let host := t.takeWhile fun c => !isSlash c
  let name := (t.drop (host.length + 1)).takeWhile fun c => !isSlash c
  if isVolumePart host && isVolumePart name then .share (2 + host.length + 1 + name.length)
  else .none

namespace Dialect

/-- The volume that a path starts with. -/
def volume : Dialect → Text → Volume
  | windows, c₁ :: c₂ :: t =>
      if c₁.isAlpha && c₂ == ':' then .drive
      else if isSlash c₁ && isSlash c₂ then readShare t
      else .none
  | _, _ => .none

/-- The number of characters of the volume that a path starts with. -/
def volumeLength (d : Dialect) (p : Text) : Nat := (d.volume p).length

/-- The volume that a path starts with, in native spelling. -/
def volumeName (d : Dialect) (p : Text) : Text := d.fromSlash (p.take (d.volumeLength p))

/-- The part of a path after its volume. -/
def tail (d : Dialect) (p : Text) : Text := p.drop (d.volumeLength p)

end Dialect

/-- The device names that stand for a device in every directory. -/
def reservedNames : List Text :=
  [['C', 'O', 'N'], ['P', 'R', 'N'], ['A', 'U', 'X'], ['N', 'U', 'L']] ++
    ['1', '2', '3', '4', '5', '6', '7', '8', '9'].flatMap fun n =>
      [['C', 'O', 'M', n], ['L', 'P', 'T', n]]

/-- A reserved device name in any letter case. No character beyond ASCII has an upper-case form
made of the letters and digits of these names, so ASCII case decides. -/
def isReservedName (p : Text) : Bool := reservedNames.contains (p.map Char.toUpper)

namespace Dialect

/-- A path that starts at a root. -/
def isAbs : Dialect → Text → Bool
  | posix, p => p.head? == some '/'
  | windows, p =>
      isReservedName p ||
        match windows.volume p with
        | .none => false
        | .share _ => true
        | .drive => (p.drop 2).head?.any isSlash

@[simp] theorem volume_posix (p : Text) : posix.volume p = .none := rfl

@[simp] theorem volumeLength_posix (p : Text) : posix.volumeLength p = 0 := rfl

@[simp] theorem tail_posix (p : Text) : posix.tail p = p := rfl

theorem readShare_length_le (t : Text) : (readShare t).length ≤ t.length + 2 := by
  have hhost : (t.takeWhile fun c => !isSlash c).length ≤ t.length :=
    (List.takeWhile_sublist _).length_le
  have hname := (List.takeWhile_sublist (l := t.drop
    ((t.takeWhile fun c => !isSlash c).length + 1)) fun c => !isSlash c).length_le
  rw [List.length_drop] at hname
  rw [readShare]
  split
  · next h =>
    simp only [Bool.and_eq_true] at h
    simp only [Volume.length]
    have hpos : 0 < ((t.drop ((t.takeWhile fun c => !isSlash c).length + 1)).takeWhile
        fun c => !isSlash c).length := by
      refine List.length_pos_iff.2 fun hnil => ?_
      rw [hnil] at h
      simp [isVolumePart] at h
    omega
  · simp [Volume.length]

/-- The volume is a part of the path. -/
theorem volumeLength_le (d : Dialect) (p : Text) : d.volumeLength p ≤ p.length := by
  rw [volumeLength, volume.eq_def]
  split
  · split
    · simp [Volume.length]
    · split
      · have := readShare_length_le ‹Text›
        simp only [List.length_cons]
        omega
      · simp [Volume.length]
  · simp [Volume.length]

theorem volumeName_length (d : Dialect) (p : Text) :
    (d.volumeName p).length = d.volumeLength p := by
  simp [volumeName, volumeLength_le]

end Dialect

end PathAlgebra
