import PmemExamples.BTree.Check
import PmemExamples.BTree.Objects
import PmemExamples.BTree.Sizes
import PmemExamples.BTree.View
import PmemExamples.CHashtable.Filling
import PmemExamples.Log.Logged
import PmemExamples.Pool.Handles
import PmemExamples.Pool.Merging
import PmemExamples.Pool.Requests
import PmemExamples.Pool.Unlink
import PmemExamples.Test1.Sessions
import PmemExamples.WordTree.Free
import PmemExamples.WordTree.Orig
import PmemExamples.WordTree.Wordfreq
