import RogOS.Fs.Impl.Format

/-!
The file system as a system of steps: the calls that tasks make, in any order. A task is only
switched between calls.
-/

namespace RogOS

/--
The system calls on the file system. `junk` is what the uninitialised `search_file` reads, where it
does.
-/
inductive Call where
  | open_ (task : Nat) (junk : UInt32) (pathname : CStr) (flags : UInt8)
  | close (task : Nat) (fd : Int)
  | write (task : Nat) (fd : Int) (buf : Mem) (count : UInt32)
  | unlink (junk : UInt32) (pathname : CStr)
  | mkdir (junk : UInt32) (pathname : CStr)
  | rmdir (junk : UInt32) (pathname : CStr)
  | opendir (junk : UInt32) (name : CStr)
  | closedir (dir : Option DirPtr)
  | chdir (task : Nat) (junk : UInt32) (path : CStr)
  | stat (junk : UInt32) (path : CStr)

inductive Value where
  | int (i : Int)
  | dir (p : Option DirPtr)
  | stat (st : Option Stat)

variable (part : Partition)

def Call.exec : Call → FsM Value
  | .open_ task junk pathname flags => do pure (.int (← sysOpen part task junk pathname flags))
  | .close task fd => do pure (.int (← sysClose task fd))
  | .write task fd buf count => do pure (.int (← sysWrite part task fd buf count))
  | .unlink junk pathname => do pure (.int (← sysUnlink part junk pathname))
  | .mkdir junk pathname => do pure (.int (← sysMkdir part junk pathname))
  | .rmdir junk pathname => do pure (.int (← sysRmdir part junk pathname))
  | .opendir junk name => do pure (.dir (← sysOpendir part junk name))
  | .closedir dir => do pure (.int (← sysClosedir dir))
  | .chdir task junk path => do pure (.int (← sysChdir part task junk path))
  | .stat junk path => do pure (.stat (← sysStat part junk path))

def Mounted (v : Vol) (s : Fs) : Prop := (openRootDir part).run (Fs.init v) = .ok ((), s)

def Formatted (v : Vol) (s : Fs) : Prop := (filesysInit part).run (Fs.init v) = .ok ((), s)

end RogOS
