import SsuComputer.Lib.Run
import SsuComputer.Ftl.Ftl
import SsuComputer.Ftl.Flash
import SsuComputer.Ftl.Refine
import SsuComputer.Ftl.Invariant
import SsuComputer.Ftl.Correct
import SsuComputer.Lib.CString
import SsuComputer.Lib.EditScript
import SsuComputer.Lib.Table
import SsuComputer.Lib.Lcs
import SsuComputer.Lib.Marks
import SsuComputer.Lib.Alignment
import SsuComputer.Sindex.FindDiff
import SsuComputer.Sindex.DiffCorrect
import SsuComputer.Lib.Grouping
import SsuComputer.Lib.Linked
import SsuComputer.Lib.While
import SsuComputer.Lib.StrictWeak
import SsuComputer.Sfinder.Lists
import SsuComputer.Sfinder.Duplicates
import SsuComputer.Sfinder.Names
import SsuComputer.Sfinder.DeletePrompt
import SsuComputer.Sfinder.PromptCorrect
import SsuComputer.Sfinder.DirTraverse
import SsuComputer.Sfinder.ScanExact
import SsuComputer.Sfinder.ListCommand
import SsuComputer.Sfinder.ListReorder
import SsuComputer.Index.DiffFile
import SsuComputer.Index.Traceback
import SsuComputer.Index.Printed
import SsuComputer.Index.DiffExact
import SsuComputer.Lib.Paging
import SsuComputer.PageReplacement.Simulation
import SsuComputer.PageReplacement.SimulationCorrect
import SsuComputer.Calculator.Clang
import SsuComputer.Calculator.JavaLang
import SsuComputer.Calculator.Descent
import SsuComputer.Lib.Settles
import SsuComputer.Calculator.Grammar
import SsuComputer.Calculator.DescentCorrect
import SsuComputer.Calculator.Accepts
import SsuComputer.Calculator.CalculatorCorrect
import SsuComputer.Lib.Strcmp
import SsuComputer.Sdup.Structs
import SsuComputer.Sdup.FileSets
import SsuComputer.Sdup.Prompt
import SsuComputer.Sdup.PromptCorrect
import SsuComputer.Ftl.MoveBlock
import SsuComputer.Ftl.Tags
import SsuComputer.Ftl.Bounds
import SsuComputer.Ftl.ReadErased
import SsuComputer.Sindex.Optimal
import SsuComputer.Index.Verdict
import SsuComputer.Index.TraceBounds
import SsuComputer.Sindex.Directory
import SsuComputer.Sindex.DirectoryExact
import SsuComputer.Index.FindFiles
import SsuComputer.Index.FindExact
import SsuComputer.Index.DiffDir
import SsuComputer.Index.DirExact
import SsuComputer.Sdup.FindDup
import SsuComputer.Sdup.SearchExact
import SsuComputer.Lib.FileSystem
import SsuComputer.Sdup.Disk
import SsuComputer.Sdup.LastCopy
import SsuComputer.Sindex.ReadDirectory
import SsuComputer.Sindex.SearchTree
import SsuComputer.Sindex.PathBuffers
import SsuComputer.Sfinder.TrashCommand
import SsuComputer.Sfinder.Newest
import SsuComputer.Sfinder.TrashMoves
import SsuComputer.Lib.Moves
import SsuComputer.Sdup.TrashCopies
import SsuComputer.Sdup.Lookup
import SsuComputer.Sfinder.CheckArgs
import SsuComputer.Sfinder.GetSize
import SsuComputer.Sfinder.RecordFile
import SsuComputer.Lib.Separated
import SsuComputer.Sdup.ByteString
import SsuComputer.Sfinder.FilesizeComma
import SsuComputer.Lib.OpenFile
import SsuComputer.FileStructure.Insert
import SsuComputer.FileStructure.ReadRange
import SsuComputer.FileStructure.Merge
import SsuComputer.FileStructure.Delete
import SsuComputer.Lib.Euclid
import SsuComputer.Hw1.Solve
import SsuComputer.Hw1.Agreement
import SsuComputer.Sdup.Tokens
import SsuComputer.Index.Prompt
import SsuComputer.Sample.TrashOption
import SsuComputer.Calculator.Python
import SsuComputer.Calculator.PythonCorrect
import SsuComputer.Calculator.Tokens
import SsuComputer.Calculator.TokenTrees
import SsuComputer.Calculator.BlanksIgnored
import SsuComputer.Calculator.ClangReads
import SsuComputer.Calculator.ReadsWithin
import SsuComputer.Lib.Noted
import SsuComputer.Index.PrintReads
import SsuComputer.Lib.Refinement
import SsuComputer.Lib.RedoLog
import SsuComputer.Xv6.Log
import SsuComputer.Xv6.LogCrash
import SsuComputer.Xv6.LogSpace
import SsuComputer.Lib.Ring
import SsuComputer.Xv6.Pipe
import SsuComputer.Lib.Cycle
import SsuComputer.Xv6.Bio
import SsuComputer.Xv6.BioCorrect
import SsuComputer.Xv6.BioLog
import SsuComputer.Xv6.Umalloc
import SsuComputer.Xv6.UmallocCorrect
import SsuComputer.Xv6.UmallocSafe
import SsuComputer.Xv6.Grep
import SsuComputer.Lib.Bytes
import SsuComputer.Xv6.Fs
import SsuComputer.Xv6.FsBlocks
import SsuComputer.Xv6.FsFiles
import SsuComputer.Xv6.FsDinode
import SsuComputer.Xv6.FsRuns
import SsuComputer.Xv6.FsTrunc
import SsuComputer.Xv6.FsStore
import SsuComputer.Xv6.Proc
import SsuComputer.Xv6.ProcInv
import SsuComputer.Xv6.ProcRuns
import SsuComputer.Xv6.ProcSched
import SsuComputer.Calculator.Readable
