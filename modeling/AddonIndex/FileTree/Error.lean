import AddonIndex.Text.Basic

/-!
# Why a file operation fails

The causes, the text of each, and the kind under which it is reported.
-/

namespace AddonIndex

/-- The cause of a failed operation on files. -/
inductive FileError
  | notFound
  | permissionDenied
  | alreadyExists
  | busy
  | notADirectory
  | isADirectory
  | invalidArgument
  | nameTooLong
  | directoryNotEmpty
  | unrunnable
  | invalidUtf8
  | notARegularFile
  | zeroByteInName
deriving DecidableEq, Repr, Inhabited

namespace FileError

/-- The description and number of a cause that the system reports. -/
def systemText (description : String) (number : Nat) : Text :=
  description ++ " (os error ".toList ++ Text.ofNat number ++ ")".toList

/-- The text of a cause. -/
def message : FileError → Text
  | notFound => systemText "No such file or directory" 2
  | unrunnable => systemText "Exec format error" 8
  | permissionDenied => systemText "Permission denied" 13
  | busy => systemText "Device or resource busy" 16
  | alreadyExists => systemText "File exists" 17
  | notADirectory => systemText "Not a directory" 20
  | isADirectory => systemText "Is a directory" 21
  | invalidArgument => systemText "Invalid argument" 22
  | nameTooLong => systemText "File name too long" 36
  | directoryNotEmpty => systemText "Directory not empty" 39
  | invalidUtf8 => "stream did not contain valid UTF-8"
  | notARegularFile =>
      "the source path is neither a regular file nor a symlink to a regular file"
  | zeroByteInName => "file name contained an unexpected NUL byte"

/-- The kind under which a cause is reported. -/
def kind : FileError → Text
  | notFound => "NotFound"
  | unrunnable => "Uncategorized"
  | permissionDenied => "PermissionDenied"
  | busy => "ResourceBusy"
  | alreadyExists => "AlreadyExists"
  | notADirectory => "NotADirectory"
  | isADirectory => "IsADirectory"
  | invalidArgument => "InvalidInput"
  | nameTooLong => "InvalidFilename"
  | directoryNotEmpty => "DirectoryNotEmpty"
  | invalidUtf8 => "InvalidData"
  | notARegularFile => "InvalidInput"
  | zeroByteInName => "InvalidInput"

end FileError

end AddonIndex
