
namespace JsonShape

inductive FileFault
  -- The number and the text that the operating system gives for it.
  | system (code : Nat) (text : String)
  -- The path holds the character that ends a path for the operating system.
  | nulInPath
  | notText
deriving DecidableEq

namespace FileFault

def notFound : FileFault := system 2 "No such file or directory"
def alreadyExists : FileFault := system 17 "File exists"
def notDirectory : FileFault := system 20 "Not a directory"
def isDirectory : FileFault := system 21 "Is a directory"
def nameTooLong : FileFault := system 36 "File name too long"

def message : FileFault → String
  | system code text => s!"{text} (os error {code})"
  | nulInPath => "file name contained an unexpected NUL byte"
  | notText => "stream did not contain valid UTF-8"

end FileFault

inductive SaveFault
  -- The directory of the file could not be made.
  | directory (fault : FileFault)
  | file (fault : FileFault)
deriving DecidableEq

def fileText (bytes : ByteArray) : Except FileFault String :=
  match String.fromUTF8? bytes with
  | some text => .ok text
  | none => .error .notText

end JsonShape
