import Mathlib.Init

/-!
# `kernel/param.h`
-/

set_option autoImplicit false

namespace Xv6Fcfs

def NPROC : Nat := 64
def NOFILE : Nat := 16
def NFILE : Nat := 100
def NINODE : Nat := 50
def NDEV : Nat := 10
def ROOTDEV : Nat := 1
def MAXARG : Nat := 32
def MAXOPBLOCKS : Nat := 10
def LOGBLOCKS : Nat := MAXOPBLOCKS * 3
def NBUF : Nat := MAXOPBLOCKS * 3
def FSSIZE : Nat := 2000
def MAXPATH : Nat := 128
def USERSTACK : Nat := 1

end Xv6Fcfs
