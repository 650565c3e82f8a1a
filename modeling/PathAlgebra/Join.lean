import PathAlgebra.Clean

/-!
# Joining

Joining puts path elements together with separators and cleans the result; empty elements do not
count, and without any other there is nothing to join. Under the Windows dialect a later element
must not turn the result into a share or a device path, so how an element is attached depends on
the last character so far (`attach`). `absPath` joins a path to a working directory unless it is
absolute, and `fromUnixPath` reads a path written for a Unix system, whose root is placed on the
default drive.
-/

set_option autoImplicit false

namespace PathAlgebra

/-- A text that starts with another, up to ASCII letter case and the kind of slash, and either
ends there or goes on with a slash. -/
def hasPrefixFold : Text → Text → Bool
  | [], [] => true
  | c :: _, [] => isSlash c
  | [], _ :: _ => false
  | c :: t, w :: u =>
      (if isSlash w then isSlash c else w.toUpper == c.toUpper) && hasPrefixFold t u

/-- An element attached to a Windows path. After a slash the element's own leading slashes are
dropped, and a lone root followed by `??` is kept from reading as the device root. After a colon
the element follows directly. Otherwise a separator comes between. -/
def attach (b e : Text) : Text :=
  match b.getLast? with
  | none => e
  | some c =>
      if isSlash c then
        let e := e.dropWhile isSlash
        let b := if b.length == 1 && hasPrefixFold e ['?', '?'] then b ++ ['.', '\\'] else b
        b ++ e
      else if c == ':' then b ++ e
      else b ++ '\\' :: e

/-- The drive that absolute Unix paths are placed on. -/
def defaultVolume : Text := ['C', ':']

namespace Dialect

/-- The elements put together, not yet cleaned. -/
def concat : Dialect → List Text → Text
  | posix, es => [posix.sep].intercalate (es.dropWhile List.isEmpty)
  | windows, es => es.foldl attach []

/-- The elements put together and cleaned; nothing for empty elements only. -/
def join (d : Dialect) (es : List Text) : Text :=
  match d.concat es with
  | [] => []
  | p => d.clean p

/-- A Unix path in the syntax of the dialect. -/
def fromUnixPath : Dialect → Text → Text
  | posix, p => p
  | windows, p =>
      if p.head? == some '/' then windows.join [defaultVolume, windows.fromSlash p]
      else windows.fromSlash p

/-- A path made absolute from a working directory. -/
def absPath (d : Dialect) (p cwd : Text) : Text :=
  if d.isAbs p then d.clean p else d.join [cwd, p]

end Dialect

end PathAlgebra
