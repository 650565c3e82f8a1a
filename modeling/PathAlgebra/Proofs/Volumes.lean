import Mathlib.Data.List.TakeWhile
import PathAlgebra.Proofs.Spelling

/-!
# Reading volumes

Which Windows paths start with a drive (`volume_eq_drive_iff`) or with a share
(`volume_eq_share_iff`). A drive is read whatever stands behind it; behind a share stands nothing or
a separator, and so the name of a volume is read as that volume in front of anything that can stand
there (`volume_volumeName_append`). Whatever stands behind the text of a share, it is read as a share
up to the next separator (`volume_shareWritten_append`). Writing the characters of a path in another
way leaves its volume alone as long as letters, slashes, colons and dots stay what they are
(`volume_map`), so the volume is the same in native spelling (`volume_fromSlash`).
-/

set_option autoImplicit false

namespace PathAlgebra

/-- The text of a host or a share name. -/
structure IsVolumePart (t : Text) : Prop where
  starts : isVolumePart t = true
  no_slash : ∀ c ∈ t, isSlash c = false

/-- The text of a share: two slashes, a host, a slash and a share name. -/
inductive ShareWritten : Text → Prop where
  | intro {a b c : Char} {host name : Text} : isSlash a = true → isSlash b = true →
      IsVolumePart host → isSlash c = true → IsVolumePart name →
      ShareWritten (a :: b :: (host ++ c :: name))

/-- A name goes on with what is no slash. -/
theorem IsVolumePart.append {t u : Text} (h : IsVolumePart t) (hu : ∀ c ∈ u, isSlash c = false) :
    IsVolumePart (t ++ u) where
  starts := by
    have hstarts := h.starts
    cases t with
    | nil => cases hstarts
    | cons c t => exact hstarts
  no_slash c hc := by
    rcases List.mem_append.1 hc with hc | hc
    · exact h.no_slash c hc
    · exact hu c hc

/-- So does a share, whose name is at its end. -/
theorem ShareWritten.append {u t : Text} (h : ShareWritten u) (ht : ∀ c ∈ t, isSlash c = false) :
    ShareWritten (u ++ t) := by
  cases h with
  | @intro a b c host name ha hb hhost hc hname =>
      have happend : a :: b :: (host ++ c :: name) ++ t = a :: b :: (host ++ c :: (name ++ t)) := by
        simp
      rw [happend]
      exact .intro ha hb hhost hc (hname.append ht)

/-- A share ends with a character of its name. -/
theorem ShareWritten.getLast? {u : Text} (h : ShareWritten u) :
    ∃ c ∈ u, u.getLast? = some c ∧ isSlash c = false := by
  cases h with
  | @intro a b s host name ha hb hhost hs hname =>
      obtain ⟨c, hc⟩ : ∃ c, name.getLast? = some c := by
        cases name with
        | nil => exact absurd hname.starts (by decide)
        | cons x name => exact ⟨_, List.getLast?_cons⟩
      have hmem : c ∈ name := List.mem_of_getLast? hc
      refine ⟨c, by simp [hmem], ?_, hname.no_slash c hmem⟩
      have happ : a :: b :: (host ++ s :: name) = (a :: b :: host ++ [s]) ++ name := by simp
      rw [happ, List.getLast?_append, hc]
      rfl

theorem isVolumePart_takeWhile {t : Text}
    (h : isVolumePart (t.takeWhile fun c => !isSlash c) = true) :
    IsVolumePart (t.takeWhile fun c => !isSlash c) where
  starts := h
  no_slash c hc := by simpa using List.mem_takeWhile_imp hc

/-- What is behind the longest run without slashes starts with a slash. -/
theorem isRooted_dropWhile (t : Text) :
    (t.dropWhile fun c => !isSlash c) = [] ∨
      Dialect.windows.isRooted (t.dropWhile fun c => !isSlash c) = true := by
  cases hdrop : t.dropWhile fun c => !isSlash c with
  | nil => exact .inl rfl
  | cons c u =>
      have hhead := List.head?_dropWhile_not (fun c => !isSlash c) t
      rw [hdrop] at hhead
      exact .inr (by simpa [Dialect.isRooted, Dialect.isSep] using hhead)

/-- A share is read off a host, a slash and a share name with nothing or a slash behind. -/
theorem readShare_eq_share_iff {t : Text} {n : Nat} :
    readShare t = .share n ↔
      ∃ host c name rest, t = host ++ c :: (name ++ rest) ∧ IsVolumePart host ∧
        isSlash c = true ∧ IsVolumePart name ∧
        (rest = [] ∨ Dialect.windows.isRooted rest = true) ∧
        n = 2 + host.length + 1 + name.length := by
  constructor
  · intro h
    simp only [readShare] at h
    split at h
    · next hparts =>
      rw [Bool.and_eq_true] at hparts
      obtain ⟨hhost, hname⟩ := hparts
      -- Behind the host there is a slash, since a share name follows.
      have hsplit := List.takeWhile_append_dropWhile (p := fun c => !isSlash c) (l := t)
      have hdrop : t.drop ((t.takeWhile fun c => !isSlash c).length + 1) =
          (t.dropWhile fun c => !isSlash c).tail := by
        conv_lhs => rw [← hsplit]
        rw [List.drop_append]
        simp
      rw [hdrop] at hname h
      cases hrest : t.dropWhile fun c => !isSlash c with
      | nil =>
          rw [hrest] at hname
          cases hname
      | cons c u =>
          rw [hrest, List.tail_cons] at hname h
          have hc : isSlash c = true := by
            have hroot := (isRooted_dropWhile t).resolve_left (by simp [hrest])
            rw [hrest] at hroot
            exact hroot
          refine ⟨_, c, u.takeWhile fun c => !isSlash c, u.dropWhile fun c => !isSlash c, ?_,
            isVolumePart_takeWhile hhost, hc, isVolumePart_takeWhile hname,
            isRooted_dropWhile u, (Volume.share.inj h).symm⟩
          rw [List.takeWhile_append_dropWhile, ← hrest, hsplit]
    · cases h
  · rintro ⟨host, c, name, rest, rfl, hhost, hc, hname, hrest, rfl⟩
    have hfirst : (host ++ c :: (name ++ rest)).takeWhile (fun c => !isSlash c) = host :=
      Dialect.takeWhile_noSep (d := .windows) hhost.no_slash (.inr hc)
    have hsecond : (name ++ rest).takeWhile (fun c => !isSlash c) = name :=
      Dialect.takeWhile_noSep (d := .windows) hname.no_slash hrest
    have hdrop : (host ++ c :: (name ++ rest)).drop (host.length + 1) = name ++ rest := by
      rw [List.drop_append]
      simp
    simp only [readShare]
    rw [hfirst, hdrop, hsecond, hhost.starts, hname.starts]
    rfl

theorem readShare_ne_drive (t : Text) : readShare t ≠ .drive := by
  intro h
  simp only [readShare] at h
  split at h <;> cases h

/-- A letter is no slash. -/
theorem isSlash_of_isAlpha {c : Char} (h : c.isAlpha = true) : isSlash c = false := by
  rw [isSlash, Bool.or_eq_false_iff, beq_eq_false_iff_ne, beq_eq_false_iff_ne]
  constructor <;> rintro rfl <;> cases h

namespace Dialect

variable {p : Text}

theorem volume_cons_cons (a b : Char) (t : Text) :
    windows.volume (a :: b :: t) =
      if a.isAlpha && b == ':' then .drive
      else if isSlash a && isSlash b then readShare t
      else .none := rfl

theorem volume_eq_drive_iff :
    windows.volume p = .drive ↔ ∃ c rest, p = c :: ':' :: rest ∧ c.isAlpha = true := by
  constructor
  · intro h
    match p with
    | [] => cases h
    | [_] => cases h
    | a :: b :: t =>
        rw [volume_cons_cons] at h
        split at h
        · next hdrive =>
          rw [Bool.and_eq_true, beq_iff_eq] at hdrive
          exact ⟨a, t, by rw [hdrive.2], hdrive.1⟩
        · split at h
          · exact absurd h (readShare_ne_drive t)
          · cases h
  · rintro ⟨c, rest, rfl, hc⟩
    rw [volume_cons_cons, hc]
    rfl

theorem volume_eq_share_iff {n : Nat} :
    windows.volume p = .share n ↔
      ∃ u rest, p = u ++ rest ∧ ShareWritten u ∧ (rest = [] ∨ windows.isRooted rest = true) ∧
        n = u.length := by
  constructor
  · intro h
    match p with
    | [] => cases h
    | [_] => cases h
    | a :: b :: t =>
        rw [volume_cons_cons] at h
        split at h
        · cases h
        · split at h
          · next hslashes =>
            rw [Bool.and_eq_true] at hslashes
            obtain ⟨host, c, name, rest, rfl, hhost, hc, hname, hrest, rfl⟩ :=
              readShare_eq_share_iff.1 h
            refine ⟨_, rest, ?_, .intro hslashes.1 hslashes.2 hhost hc hname, hrest, ?_⟩
            · simp
            · simp only [List.length_cons, List.length_append]
              omega
          · cases h
  · rintro ⟨u, rest, rfl, hu, hrest, rfl⟩
    cases hu with
    | @intro a b c host name ha hb hhost hc hname =>
        have hdrive : ¬ (a.isAlpha && b == ':') = true := by
          rw [Bool.and_eq_true, not_and]
          intro halpha
          rw [isSlash_of_isAlpha halpha] at ha
          cases ha
        rw [List.cons_append, List.cons_append, volume_cons_cons, if_neg hdrive, ha, hb,
          Bool.and_true, if_pos rfl, readShare_eq_share_iff]
        refine ⟨host, c, name, rest, by simp, hhost, hc, hname, hrest, ?_⟩
        simp only [List.length_cons, List.length_append]
        omega

/-- Whatever stands behind the text of a share, the share goes on up to the next separator. -/
theorem volume_shareWritten_append {u : Text} (hu : ShareWritten u) (t : Text) :
    windows.volume (u ++ t) = .share (u ++ t.takeWhile fun c => !isSlash c).length := by
  have hname : ∀ c ∈ t.takeWhile fun c => !isSlash c, isSlash c = false := by
    intro c hc
    simpa using List.mem_takeWhile_imp hc
  have hcut : u ++ t = (u ++ t.takeWhile fun c => !isSlash c) ++
      t.dropWhile fun c => !isSlash c := by
    rw [List.append_assoc, List.takeWhile_append_dropWhile]
  exact volume_eq_share_iff.2 ⟨_, _, hcut, hu.append hname, isRooted_dropWhile t, rfl⟩

/-- A path starts with a share when the text of one is a beginning of it. -/
theorem isShare_volume_iff :
    (windows.volume p).isShare = true ↔ ∃ u, ShareWritten u ∧ u <+: p := by
  constructor
  · intro hshare
    cases hvol : windows.volume p with
    | none =>
        rw [hvol] at hshare
        cases hshare
    | drive =>
        rw [hvol] at hshare
        cases hshare
    | share n =>
        obtain ⟨u, rest, rfl, hu, -, -⟩ := volume_eq_share_iff.1 hvol
        exact ⟨u, hu, List.prefix_append u rest⟩
  · rintro ⟨u, hu, t, rfl⟩
    rw [volume_shareWritten_append hu]
    rfl

/-- A beginning of a text without a volume has none either. -/
theorem volume_eq_none_of_isPrefix {b : Text} (hp : windows.volume p = .none) (hb : b <+: p) :
    windows.volume b = .none := by
  cases hvol : windows.volume b with
  | none => rfl
  | drive =>
      obtain ⟨c, rest, rfl, hc⟩ := volume_eq_drive_iff.1 hvol
      obtain ⟨t, rfl⟩ := hb
      have hdrive := volume_eq_drive_iff.2 ⟨c, rest ++ t, rfl, hc⟩
      exact absurd (hp.symm.trans hdrive) (by decide)
  | share n =>
      obtain ⟨u, hu, hfirst⟩ := isShare_volume_iff.1 (by rw [hvol]; rfl)
      have hshare := isShare_volume_iff.2 ⟨u, hu, hfirst.trans hb⟩
      rw [hp] at hshare
      cases hshare

/-- Only a path without a volume has a volume of no characters. -/
theorem volumeLength_eq_zero_iff : windows.volumeLength p = 0 ↔ windows.volume p = .none := by
  rw [volumeLength]
  cases h : windows.volume p with
  | none => simp [Volume.length]
  | drive => simp [Volume.length]
  | share n =>
      obtain ⟨u, rest, -, hu, -, rfl⟩ := volume_eq_share_iff.1 h
      cases hu
      simp [Volume.length]

theorem tail_eq_self {d : Dialect} (h : d.volume p = .none) : d.tail p = p := by
  rw [tail, volumeLength, h]
  rfl

theorem volume_drive {c : Char} (hc : c.isAlpha = true) (t : Text) :
    windows.volume (c :: ':' :: t) = .drive :=
  volume_eq_drive_iff.2 ⟨c, t, rfl, hc⟩

theorem tail_drive {c : Char} (hc : c.isAlpha = true) (t : Text) :
    windows.tail (c :: ':' :: t) = t := by
  rw [tail, volumeLength, volume_drive hc]
  rfl

theorem volumeName_eq_nil (h : windows.volume p = .none) : windows.volumeName p = [] := by
  rw [volumeName, volumeLength_eq_zero_iff.2 h]
  rfl

theorem exists_share {v : Volume} (h : v.isShare = true) : ∃ n, v = .share n := by
  cases v with
  | none => cases h
  | drive => cases h
  | share n => exact ⟨n, rfl⟩

/-- Behind a share there is nothing or a separator. -/
theorem isRooted_tail_of_share (h : (windows.volume p).isShare = true) :
    windows.tail p = [] ∨ windows.isRooted (windows.tail p) = true := by
  obtain ⟨n, hvol⟩ := exists_share h
  obtain ⟨u, rest, rfl, -, hrest, rfl⟩ := volume_eq_share_iff.1 hvol
  have htail : windows.tail (u ++ rest) = rest := by
    rw [tail, volumeLength, hvol]
    exact List.drop_left
  rw [htail]
  exact hrest

/-! ## Other spellings -/

/-- A change of characters that keeps all that volumes are read by. -/
structure KeepsVolumes (f : Char → Char) : Prop where
  isSlash_eq (c : Char) : isSlash (f c) = isSlash c
  isAlpha_eq (c : Char) : (f c).isAlpha = c.isAlpha
  colon_eq (c : Char) : (f c == ':') = (c == ':')
  dot_eq (c : Char) : (f c != '.') = (c != '.')

namespace KeepsVolumes

variable {f : Char → Char}

theorem takeWhile_map (h : KeepsVolumes f) (t : Text) :
    (t.map f).takeWhile (fun c => !isSlash c) = (t.takeWhile fun c => !isSlash c).map f := by
  have hcomp : (fun c => !isSlash c) ∘ f = fun c => !isSlash c :=
    funext fun c => congrArg not (h.isSlash_eq c)
  rw [List.takeWhile_map, hcomp]

theorem isVolumePart_map (h : KeepsVolumes f) (t : Text) :
    isVolumePart (t.map f) = isVolumePart t := by
  cases t with
  | nil => rfl
  | cons c t => exact h.dot_eq c

theorem readShare_map (h : KeepsVolumes f) (t : Text) : readShare (t.map f) = readShare t := by
  simp only [readShare, h.takeWhile_map, List.length_map, ← List.map_drop, h.isVolumePart_map]

theorem volume_map (h : KeepsVolumes f) (p : Text) :
    windows.volume (p.map f) = windows.volume p := by
  match p with
  | [] => rfl
  | [_] => rfl
  | a :: b :: t =>
      rw [List.map_cons, List.map_cons, volume_cons_cons, volume_cons_cons, h.isAlpha_eq,
        h.colon_eq, h.isSlash_eq, h.isSlash_eq, h.readShare_map]

end KeepsVolumes

/-- Writing a character natively keeps what both slashes agree on. -/
theorem native_congr {α : Type} (f : Char → α) (h : f '\\' = f '/') (c : Char) :
    f (if c == '/' then windows.sep else c) = f c := by
  by_cases hc : c = '/'
  · rw [hc]
    exact h
  · rw [if_neg (by simpa using hc)]

/-- A volume is the same in native spelling. -/
theorem volume_fromSlash (p : Text) :
    windows.volume (windows.fromSlash p) = windows.volume p := by
  have hkeeps : KeepsVolumes fun c => if c == '/' then windows.sep else c :=
    ⟨native_congr isSlash rfl, native_congr Char.isAlpha rfl, native_congr (· == ':') rfl,
      native_congr (· != '.') rfl⟩
  exact hkeeps.volume_map p

/-- What follows the volume is only written natively. -/
theorem tail_fromSlash (p : Text) :
    windows.tail (windows.fromSlash p) = windows.fromSlash (windows.tail p) := by
  rw [tail, volumeLength, volume_fromSlash]
  exact List.map_drop.symm

/-! ## The name of a volume -/

theorem volumeName_fromSlash (p : Text) :
    windows.volumeName (windows.fromSlash p) = windows.volumeName p := by
  have htake : (windows.fromSlash p).take (windows.volumeLength p) = windows.volumeName p :=
    List.map_take.symm
  rw [volumeName, volumeLength, volume_fromSlash, ← volumeLength, htake, volumeName,
    fromSlash_fromSlash]

theorem volume_volumeName (p : Text) :
    windows.volume (windows.volumeName p) = windows.volume p := by
  rw [volumeName, volume_fromSlash, volumeLength]
  cases h : windows.volume p with
  | none => rfl
  | drive =>
      obtain ⟨c, rest, rfl, hc⟩ := volume_eq_drive_iff.1 h
      exact volume_eq_drive_iff.2 ⟨c, [], rfl, hc⟩
  | share n =>
      obtain ⟨u, rest, rfl, hu, -, rfl⟩ := volume_eq_share_iff.1 h
      refine volume_eq_share_iff.2 ⟨u, [], ?_, hu, .inl rfl, rfl⟩
      rw [List.append_nil]
      exact List.take_left

/-- The name of a volume is read as the volume in front of what can stand behind it: a text without
a volume behind none, anything behind a drive, and nothing or a separator behind a share. -/
theorem volume_volumeName_append {t : Text}
    (hnone : windows.volume p = .none → windows.volume t = .none)
    (hshare : (windows.volume p).isShare = true → t = [] ∨ windows.isRooted t = true) :
    windows.volume (windows.volumeName p ++ t) = windows.volume p := by
  have hname := volume_volumeName p
  have hlength := volumeName_length windows p
  rw [volumeLength] at hlength
  cases h : windows.volume p with
  | none =>
      rw [h] at hlength
      rw [List.length_eq_zero_iff.1 hlength, List.nil_append]
      exact hnone h
  | drive =>
      rw [h] at hname
      obtain ⟨c, rest, heq, hc⟩ := volume_eq_drive_iff.1 hname
      exact volume_eq_drive_iff.2 ⟨c, rest ++ t, by rw [heq]; rfl, hc⟩
  | share n =>
      rw [h] at hname hlength
      obtain ⟨u, rest, heq, hu, -, hn⟩ := volume_eq_share_iff.1 hname
      -- The name is all of the share, so nothing stands between it and the text.
      have hrest : rest = [] := by
        rw [heq, List.length_append, Volume.length, hn] at hlength
        exact List.length_eq_zero_iff.1 (by omega)
      rw [hrest, List.append_nil] at heq
      rw [heq]
      exact volume_eq_share_iff.2 ⟨u, t, rfl, hu, hshare (by rw [h]; rfl), hn⟩

/-- Where the name of a volume is read as the volume, the text behind it is the tail. -/
theorem volumeName_append {d : Dialect} {t : Text}
    (h : d.volume (d.volumeName p ++ t) = d.volume p) :
    d.volumeName (d.volumeName p ++ t) = d.volumeName p ∧ d.tail (d.volumeName p ++ t) = t := by
  have hlength : d.volumeLength (d.volumeName p ++ t) = (d.volumeName p).length := by
    rw [volumeLength, h, volumeName_length, volumeLength]
  have htake : d.volumeName (d.volumeName p ++ t) = d.fromSlash (d.volumeName p) := by
    conv_lhs => rw [volumeName, hlength, List.take_left]
  refine ⟨?_, ?_⟩
  · rw [htake, volumeName, fromSlash_fromSlash]
  · rw [tail, hlength, List.drop_left]

end Dialect

end PathAlgebra
